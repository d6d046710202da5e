import VineyardLoader.Loader.Grants

/-!
# Memory outside the grants

The loader is a guest in the memory of the firmware, so what it writes must go to pages that it was
granted. This holds for every run of `loader_kernel`, whether it reaches the jump or stops before
(`loaderKernel_contained`), as long as the sizes of every segment are in order and no segment lies
in the slot of the self-map. Then no write of a segment leaves its pages, so no run stops there.

The writes go to page tables, to segments, and to the stack and the memory map. The tables are found
by reading memory, so that they are the loader's own is an invariant of the run: the tables are a
tree, and every table is a page granted since the start (`Building`). Writes to segments, to the stack
and to the map go to pages that hold no table, so every step keeps the invariant (`building_tracks`).

In the slot of the self-map a table is a leaf. A segment there makes the bytes of the file into
entries, which the next segment follows, and so the file says where the loader writes
(`selfMapped_escapes`).
-/

set_option autoImplicit false

namespace VineyardLoader

variable {fw : Firmware} {platform : Platform} {start machine final : Machine} {pml4 : Nat}
  {own grants : List Extent}

/-! ## What a run has written to -/

/-- From the start on the pages of the list were granted, and nothing else was written to. -/
structure Confined (start : Machine) (grants : List Extent) (machine : Machine) : Prop where
  allocated : machine.allocated = grants ++ start.allocated
  outside : ∀ address, (∀ extent ∈ grants, ¬ extent.Contains address) →
    machine.mem address = start.mem address

/-- Memory outside the pages granted since the start is as it was. -/
def WithinGrants (start machine : Machine) : Prop := ∃ grants, Confined start grants machine

theorem Confined.step (taken : List Extent) (confined : Confined start grants machine)
    (allocated : final.allocated = taken ++ machine.allocated)
    (same : ∀ address, (∀ extent ∈ taken ++ grants, ¬ extent.Contains address) →
      final.mem address = machine.mem address) : Confined start (taken ++ grants) final where
  allocated := by rw [allocated, confined.allocated, List.append_assoc]
  outside address outside := (same address outside).trans <|
    confined.outside address fun extent member => outside extent (List.mem_append_right _ member)

theorem WithinGrants.refl (machine : Machine) : WithinGrants machine machine := ⟨[], rfl, fun _ _ => rfl⟩

/-- Every table is a page granted since the start, and so are the pages of the list, which hold no
table. -/
structure Building (start : Machine) (pml4 : Nat) (own : List Extent) (machine : Machine) :
    Prop where
  tree : PageTree machine pml4
  reserved : ∀ extent ∈ own, Reserved pml4 extent machine
  confined : ∃ grants, Confined start grants machine ∧ (∀ extent ∈ own, extent ∈ grants) ∧
    ∀ path table, path.length ≤ 3 → tableAt machine.mem pml4 path = some table →
      tableExtent table ∈ grants

namespace Building

variable (building : Building start pml4 own machine)
include building

theorem contained : WithinGrants start machine :=
  building.confined.elim fun grants confined => ⟨grants, confined.1⟩

theorem forget {fewer : List Extent} (subset : ∀ extent ∈ fewer, extent ∈ own) :
    Building start pml4 fewer machine := by
  obtain ⟨grants, confined, owned, tables⟩ := building.confined
  exact ⟨building.tree, fun extent member => building.reserved extent (subset extent member),
    grants, confined, fun extent member => owned extent (subset extent member), tables⟩

/-- The tables grow, and nothing but tables is written to. -/
theorem grows (taken : List Extent) (grows : Grows pml4 machine final)
    (allocated : final.allocated = taken ++ machine.allocated)
    (same : ∀ address, (∀ extent ∈ taken, ¬ extent.Contains address) →
      (∀ path table, path.length ≤ 3 → tableAt machine.mem pml4 path = some table →
        ¬ (tableExtent table).Contains address) → final.mem address = machine.mem address) :
    Building start pml4 own final := by
  obtain ⟨grants, confined, owned, tables⟩ := building.confined
  refine ⟨grows.tree, fun extent member => ((building.reserved extent member).grows grows).1,
    taken ++ grants, confined.step taken allocated fun address outside => ?_,
    fun extent member => List.mem_append_right _ (owned extent member), ?_⟩
  · refine same address (fun extent member => outside extent (List.mem_append_left _ member)) ?_
    exact fun path table short ends =>
      outside _ (List.mem_append_right _ (tables path table short ends))
  · intro path table short ends
    rcases grows.fresh path table short ends with old | fresh
    · exact List.mem_append_right _ (tables path table short old)
    -- a table that lies apart from everything before is not among it
    · have here := grows.tree.owned path table short ends
      rw [allocated] at here
      rcases List.mem_append.mp here with new | before
      · exact List.mem_append_left _ new
      · have inside : (tableExtent table).Contains table := tableExtent_contains.mpr (by omega)
        exact absurd inside (fresh _ before table inside)

/-- A write to the pages that hold no table leaves the tables alone. -/
theorem write_agree (same : ∀ address, (∀ extent ∈ own, ¬ extent.Contains address) →
      final.mem address = machine.mem address) :
    ∀ path table, path.length ≤ 3 → tableAt machine.mem pml4 path = some table →
      ∀ address, (tableExtent table).Contains address →
        final.mem address = machine.mem address := by
  intro path table short ends address inTable
  refine same address fun extent member inside => ?_
  exact (building.reserved extent member).apart path table short ends address inside inTable

theorem write (allocated : final.allocated = machine.allocated)
    (same : ∀ address, (∀ extent ∈ own, ¬ extent.Contains address) →
      final.mem address = machine.mem address) : Building start pml4 own final := by
  obtain ⟨grants, confined, owned, tables⟩ := building.confined
  have agree := building.write_agree same
  have more : ∀ extent ∈ machine.allocated, extent ∈ final.allocated :=
    fun _ member => allocated ▸ member
  refine ⟨building.tree.of_agree agree more,
    fun extent member => (building.reserved extent member).of_agree agree more, grants, ?_, owned, ?_⟩
  · refine confined.step [] allocated fun address outside => ?_
    exact same address fun extent member => outside extent (owned extent member)
  · intro path table short ends
    rw [tableAt_of_agree agree path short] at ends
    exact tables path table short ends

/-- Pages that are granted, and perhaps written to, are no tables. -/
theorem grant_agree {pages base : Nat} (granted : fw.allocatePages machine pages = some base)
    (same : ∀ address, ¬ Extent.Contains ⟨base, pages * pageSize⟩ address →
      final.mem address = machine.mem address) :
    ∀ path table, path.length ≤ 3 → tableAt machine.mem pml4 path = some table →
      ∀ address, (tableExtent table).Contains address →
        final.mem address = machine.mem address :=
  fun path table short ends address inTable => same address fun inside =>
    fw.allocatePages_fresh _ _ _ granted _ (building.tree.owned path table short ends) address
      inside inTable

theorem grant {pages base : Nat} (granted : fw.allocatePages machine pages = some base)
    (allocated : final.allocated = ⟨base, pages * pageSize⟩ :: machine.allocated)
    (same : ∀ address, ¬ Extent.Contains ⟨base, pages * pageSize⟩ address →
      final.mem address = machine.mem address) :
    Building start pml4 (⟨base, pages * pageSize⟩ :: own) final := by
  obtain ⟨grants, confined, owned, tables⟩ := building.confined
  have fresh := fw.allocatePages_fresh _ _ _ granted
  have agree := building.grant_agree granted same
  have more : ∀ extent ∈ machine.allocated, extent ∈ final.allocated :=
    fun _ member => allocated ▸ List.mem_cons_of_mem _ member
  refine ⟨building.tree.of_agree agree more, List.forall_mem_cons.mpr ⟨⟨?_, ?_⟩, ?_⟩,
    ⟨base, pages * pageSize⟩ :: grants, ?_, ?_, ?_⟩
  · rw [allocated]
    exact List.mem_cons_self
  · intro path table short ends
    rw [tableAt_of_agree agree path short] at ends
    exact fresh _ (building.tree.owned path table short ends)
  · exact fun extent member => (building.reserved extent member).of_agree agree more
  · refine confined.step [_] allocated fun address outside => ?_
    exact same address (outside _ List.mem_cons_self)
  · exact List.forall_mem_cons.mpr ⟨List.mem_cons_self, fun extent member =>
      List.mem_cons_of_mem _ (owned extent member)⟩
  · intro path table short ends
    rw [tableAt_of_agree agree path short] at ends
    exact List.mem_cons_of_mem _ (tables path table short ends)

/-- A leaf is written. -/
theorem writeLeaf {path : List Nat} {table index value : Nat} (long : path.length = 3)
    (ends : tableAt machine.mem pml4 path = some table) (bounded : index < 512)
    (fits : value < 2 ^ 64) :
    Building start pml4 own (PageTree.written machine table index value) := by
  refine building.grows [] (building.tree.writeLeaf long ends bounded fits) rfl ?_
  intro address _ tables
  have notTable := tables _ table (by omega) ends
  rw [tableExtent_contains] at notTable
  exact Memory.store64_outside _ (by omega)

end Building

/-! ## Page tables -/

/-- The entry of the self-map is met at the top level only. -/
theorem PageTree.not_selfMap (tree : PageTree machine pml4) {path : List Nat} {table index : Nat}
    (short : path.length ≤ 3) (ends : tableAt machine.mem pml4 path = some table)
    (inner : path = [] → index ≠ selfMapSlot) : ¬ (table = pml4 ∧ index = selfMapSlot) := by
  rintro ⟨root, slot⟩
  by_cases empty : path = []
  · exact inner empty slot
  · exact tree.ne_root short ends empty root

/-- What a level of `loader_paging_map` does: it links a page, or it changes nothing. -/
theorem nextTable_cases {table index next : Nat}
    (run : nextTable fw table index machine = .ok next final) :
    (∃ page, presentEntry machine.mem table index = none ∧
      fw.allocatePages machine 1 = some page ∧
      final = PageTree.linked fw machine table index page) ∨ final = machine := by
  rw [nextTable, bind_of_ok (readWord_run _ _)] at run
  split at run
  · rename_i missing
    obtain ⟨page, allocated, alloc, write⟩ := bind_eq_ok.mp run
    obtain ⟨granted, rfl⟩ := uefiAllocPages_ok.mp alloc
    simp only [bind_run, writeWord_run, pure_run, EStateM.Result.ok.injEq] at write
    refine .inl ⟨page, if_pos missing, granted, ?_⟩
    rw [← write.2, Nat.or_assoc]
    rfl
  · cases run
    exact .inr rfl

/-- A level of `loader_paging_map` stops before it changes anything. -/
theorem nextTable_stops {table index : Nat} {reason : Halt}
    (run : nextTable fw table index machine = .error reason final) : final = machine := by
  rw [nextTable, bind_of_ok (readWord_run _ _)] at run
  split at run
  · rcases bind_eq_error.mp run with alloc | ⟨page, allocated, -, write⟩
    · obtain ⟨-, -, rfl⟩ := uefiAllocPages_error.mp alloc
      rfl
    · cases write
  · cases run

/-- The table at the end of a path is known. -/
def BuildingAt (start : Machine) (pml4 : Nat) (own : List Extent) (path : List Nat) (table : Nat)
    (machine : Machine) : Prop :=
  Building start pml4 own machine ∧ tableAt machine.mem pml4 path = some table

theorem nextTable_building {path : List Nat} {table index : Nat} (short : path.length < 3)
    (bounded : index < 512) (inner : path = [] → index ≠ selfMapSlot) :
    Ensures (BuildingAt start pml4 own path table) (nextTable fw table index)
      (fun next => BuildingAt start pml4 own (path ++ [index]) next) (WithinGrants start) := by
  rintro machine ⟨building, ends⟩
  refine ⟨fun next final run => ?_, fun reason stopped run => ?_⟩
  · have notSelf := building.tree.not_selfMap (by omega) ends inner
    obtain ⟨grows, nextEnds, -⟩ := nextTable_ok building.tree short ends bounded notSelf run
    refine ⟨?_, nextEnds⟩
    rcases nextTable_cases run with ⟨page, -, granted, rfl⟩ | rfl
    · refine building.grows [tableExtent page] grows ?_ fun address outside tables => ?_
      · simp [PageTree.linked, Machine.withPages, tableExtent]
      · have notPage := outside _ List.mem_cons_self
        have notTable := tables path table (by omega) ends
        rw [tableExtent_contains] at notPage notTable
        show ((machine.mem.fill page 0x1000 0).store64 (table + 8 * index) (page ||| linkFlags))
          address = machine.mem address
        rw [Memory.store64_outside _ (by omega), Memory.fill_outside _ (by omega)]
    · exact building
  · rw [nextTable_stops run]
    exact building.contained

/-- One page is mapped. -/
theorem loaderPagingMap_building {call : MapCall} (mappable : call.Mappable) :
    Ensures (Building start pml4 own)
      (loaderPagingMap fw pml4 call.physical call.virtual call.flags)
      (fun _ => Building start pml4 own) (WithinGrants start) := by
  have digit : ∀ low, slice call.virtual low < 512 := fun low => Nat.mod_lt _ (by decide)
  have fits : call.physical ||| call.flags < 2 ^ 64 := entry_lt mappable.isPage mappable.flags
  have level : ∀ (path : List Nat) (table low : Nat), path.length < 3 →
      (path = [] → slice call.virtual low ≠ selfMapSlot) →
        Ensures (BuildingAt start pml4 own path table) (nextTable fw table (slice call.virtual low))
          (fun next => BuildingAt start pml4 own (path ++ [slice call.virtual low]) next)
          (WithinGrants start) :=
    fun path table low short inner => nextTable_building short (digit low) inner
  rw [loaderPagingMap, mmVirtualIndices_eq mappable.bounded]
  refine Ensures.bind ((level [] pml4 39 (by decide) fun _ => mappable.inner).weaken
    (fun machine building => ⟨building, follow_nil⟩) fun _ _ => id) fun pml3 => ?_
  refine (level ([] ++ [_]) pml3 30 (by simp) (by simp)).bind fun pml2 => ?_
  refine (level ([] ++ [_] ++ [_]) pml2 21 (by simp) (by simp)).bind fun pml1 => ?_
  refine Ensures.modify ?_
  rintro machine ⟨building, ends⟩
  exact building.writeLeaf rfl ends (digit 12) fits

/-- The tables and the other pages are all granted, whatever a step does to memory. -/
theorem building_tracks (fw : Firmware) (start : Machine) (pml4 : Nat) :
    Tracks fw pml4 (WithinGrants start) (Building start pml4) where
  map _ _ mappable := loaderPagingMap_building mappable
  grant building granted allocated same := building.grant granted allocated same
  write building allocated same := building.write allocated same
  stop building := building.contained

/-- New tables are one page with nothing linked to it. -/
theorem loaderPagingSetup_ok (run : loaderPagingSetup fw machine = .ok pml4 final) :
    final.allocated = tableExtent pml4 :: machine.allocated ∧
      (∀ address, ¬ (tableExtent pml4).Contains address →
        final.mem address = machine.mem address) ∧
      ∀ path table, tableAt final.mem pml4 path = some table → path = [] ∧ table = pml4 := by
  obtain ⟨page, allocated, alloc, write⟩ := bind_eq_ok.mp run
  obtain ⟨granted, rfl⟩ := uefiAllocPages_ok.mp alloc
  obtain ⟨rfl, rfl⟩ : page = pml4 ∧ _ = final := by simpa [bind_run] using write
  have isPage := PageTree.isPage_of_granted granted
  have noLinks : ∀ index, links ((machine.mem.fill page pageSize 0).store64 (page + 8 * selfMapSlot)
      (page ||| pageWrite ||| pagePresent)) page page index = none := by
    intro index
    rw [links]
    split
    · rename_i valid
      have entry : page ||| pageWrite ||| pagePresent < 2 ^ 64 :=
        Nat.or_lt_two_pow (Nat.or_lt_two_pow isPage.lt (by decide)) (by decide)
      rw [presentEntry_eq_none_of_zero]
      · rfl
      · rw [entryAt_writeWord isPage.1 isPage.1 valid.1 (by decide) entry,
          if_neg fun both => valid.2 both, entryAt_fill isPage.1 isPage.1 valid.1, if_pos rfl]
    · rfl
  refine ⟨?_, fun address outside => ?_, fun path table ends => follow_of_no_links noLinks ends⟩
  · simp [Machine.withPages, tableExtent]
  · rw [tableExtent_contains] at outside
    show ((machine.mem.fill page 4096 0).store64 (page + 8 * selfMapSlot)
      (page ||| pageWrite ||| pagePresent)) address = machine.mem address
    rw [Memory.store64_outside _ (by simp only [selfMapSlot]; omega),
      Memory.fill_outside _ (by omega)]

theorem loaderPagingSetup_building :
    Ensures (fun state => state = start) (loaderPagingSetup fw)
      (fun pml4 => Building start pml4 []) (WithinGrants start) := by
  rintro machine rfl
  refine ⟨fun pml4 final run => ?_, fun reason stopped run => ?_⟩
  · obtain ⟨allocated, same, onlyRoot⟩ := loaderPagingSetup_ok run
    refine ⟨(loaderPagingSetup_refines run).tree, List.forall_mem_nil _, [tableExtent pml4],
      ⟨allocated, fun address outside => same address (outside _ List.mem_cons_self)⟩,
      List.forall_mem_nil _, fun path table _ ends => ?_⟩
    rw [(onlyRoot path table ends).2]
    exact List.mem_cons_self
  · rcases bind_eq_error.mp run with alloc | ⟨page, allocated, -, write⟩
    · obtain ⟨-, -, rfl⟩ := uefiAllocPages_error.mp alloc
      exact .refl _
    · cases write

/-! ## The whole run -/

/-- A run to the jump leaves tables that were all granted to it. -/
theorem loaderKernel_building (low : AnswersLow fw platform) (maps : fw.MapsFit)
    (fits : machine.MapFits) (inner : InnerTable fw platform machine) :
    Ensures (fun state => state = machine) (loaderKernel fw platform)
      (fun jump => Building machine jump.pml4 []) (WithinGrants machine) :=
  (loaderKernel_tracks (building_tracks fw machine) loaderPagingSetup_building low maps fits
    inner).weaken (fun _ => id) fun _ _ ⟨_, building⟩ => building.forget (List.forall_mem_nil _)

/-- The size of the table that the loader parses fits an `int`, and its loadable entries have sizes
in order and no address in the slot of the self-map. -/
def OrderedTable (fw : Firmware) (platform : Platform) (machine : Machine) : Prop :=
  ∀ opened middle phdrs parsed, loaderKernelOpen fw platform machine = .ok opened middle →
    loaderParsePhdrs fw opened.header middle = .ok phdrs parsed →
      opened.header.ePhnum * opened.header.ePhentsize < 2 ^ 31 ∧
        ∀ phdr ∈ loadSegments opened.header phdrs, phdr.Inner ∧ phdr.pFilesz ≤ phdr.pMemsz

theorem OrderedTable.inner (ordered : OrderedTable fw platform machine) :
    InnerTable fw platform machine :=
  fun opened middle phdrs parsed opens parse phdr member =>
    ((ordered opened middle phdrs parsed opens parse).2 phdr member).1

/-- For a file with its table in it this is a condition on the file. -/
theorem UpperKernel.orderedTable (kernel : UpperKernel fw.kernel)
    (small : (kernelHeader fw.kernel).ePhnum * (kernelHeader fw.kernel).ePhentsize < 2 ^ 31) :
    OrderedTable fw platform machine := by
  intro opened middle phdrs parsed opens parse
  obtain ⟨-, -, phentsize, phnum⟩ := loaderKernelOpen_fields kernel.ehdr opens
  rw [loaderParsePhdrs_segments kernel opens parse, phentsize, phnum]
  exact ⟨small, fun phdr member => ⟨(kernel.upper phdr member).inner, kernel.ordered phdr member⟩⟩

/-- The table is parsed or the loader exits. -/
theorem loaderParsePhdrs_error {header : Elf64Ehdr} {reason : Halt}
    (run : loaderParsePhdrs fw header machine = .error reason final) : reason = .exit := by
  rcases bind_eq_error.mp run with set | ⟨⟨⟩, moved, -, run⟩
  · cases set
  rcases bind_eq_error.mp run with asks | ⟨answer, pooled, -, run⟩
  · rw [callAllocatePool, bind_of_ok (get_run _)] at asks
    cases granted : fw.allocatePool moved (header.ePhnum * header.ePhentsize) with
    | none =>
        rw [granted] at asks
        cases asks
    | some pool =>
        rw [granted] at asks
        cases asks
  rcases bind_eq_error.mp run with refused | ⟨block, _, -, run⟩
  · cases answer <;> cases refused
    rfl
  rcases bind_eq_error.mp run with reads | ⟨⟨status, data⟩, _, -, run⟩
  · rw [readFile, bind_of_ok (get_run _)] at reads
    split at reads
    · cases reads
    · cases reads
  rcases check_eq_error.mp run with ⟨-, exits, -⟩ | ⟨-, done⟩
  · exact exits
  · cases done

/-- **No write of a segment leaves its pages**, so `loader_kernel_phdrs` stops at none. -/
theorem loaderKernelPhdrs_defined {opened : Opened} {middle stopped : Machine}
    (ordered : OrderedTable fw platform machine)
    (opens : loaderKernelOpen fw platform machine = .ok opened middle) :
    loaderKernelPhdrs fw opened.header opened.pml4 middle ≠ .error .undefined stopped := by
  intro run
  cases parse : loaderParsePhdrs fw opened.header middle with
  | ok phdrs parsed =>
      obtain ⟨small, sizes⟩ := ordered opened middle phdrs parsed opens parse
      rcases loaderKernelPhdrs_stops parse run with ⟨-, meaningless⟩ | ⟨defined, -⟩
      · exact meaningless ⟨small, fun phdr member =>
          (sizes phdr member).1.room (sizes phdr member).2⟩
      · exact defined rfl
  | error reason other =>
      rw [loaderKernelPhdrs, bind_run, parse] at run
      have exits := loaderParsePhdrs_error parse
      cases run
      cases exits

/-- **Every run of `loader_kernel` leaves memory outside the pages that it is granted as it was**,
whether it reaches the jump or stops, if the sizes of every segment are in order and no segment
lies in the slot of the self-map. That no write of a segment leaves its pages is part of it: the
run is never stopped there. The firmware's answers lie in the lower half (`AnswersLow`), and its
memory maps have room (`MapsFit`). -/
theorem loaderKernel_contained (low : AnswersLow fw platform) (maps : fw.MapsFit)
    (fits : machine.MapFits) (ordered : OrderedTable fw platform machine) :
    WithinGrants machine (finalState (loaderKernel fw platform machine)) ∧
      ∀ opened middle stopped, loaderKernelOpen fw platform machine = .ok opened middle →
        loaderKernelPhdrs fw opened.header opened.pml4 middle ≠ .error .undefined stopped :=
  ⟨(loaderKernel_building low maps fits ordered.inner).finalState
    (fun _ _ building => building.contained) rfl,
    fun _ _ _ opens => loaderKernelPhdrs_defined ordered opens⟩

theorem loaderKernel_contained_sample :
    WithinGrants freshMachine
        (finalState (loaderKernel imageFirmware samplePlatform freshMachine)) ∧
      returned (loaderKernel imageFirmware samplePlatform freshMachine) = true := by
  have fits : freshMachine.MapFits := by
    unfold Machine.MapFits
    decide
  have ordered : OrderedTable imageFirmware samplePlatform freshMachine :=
    imageFile_upper.orderedTable (by decide +kernel)
  exact ⟨(loaderKernel_contained placingFirmware_low imageFirmware_mapsFit fits ordered).1,
    by decide +kernel⟩

/-- Two segments. The first makes its own page, with an address from the file in its first entry, the
first table of the lower half, and the second maps the page at address zero. -/
def selfMappedFile : List UInt8 :=
  kernelFile 0 [⟨ptLoad, 6, 176, 0xFFFFFF7FBFC00000, 0, 8, 8, 0x1000⟩,
    ⟨ptLoad, 6, 184, 0, 0, 0, 1, 0x1000⟩] [0x01, 0x50, 0, 0, 0, 0, 0, 0]

theorem selfMappedFile_small : selfMappedFile.length < 2 ^ 64 := by decide +kernel

def selfMappedFirmware : Firmware :=
  placingFirmware (lowerEnd - 3 * pageSize) imagePlace_aligned imagePlace_fits selfMappedFile
    selfMappedFile_small

/-- **A segment in the slot of the self-map lets the file say where the loader writes.** Nothing was
granted at `0x5000`, where a page table entry is written. -/
theorem selfMapped_escapes :
    AnswersLow selfMappedFirmware samplePlatform ∧ selfMappedFirmware.MapsFit ∧
      ∃ jump final, loaderKernel selfMappedFirmware samplePlatform freshMachine = .ok jump final ∧
        ¬ WithinGrants freshMachine final := by
  refine ⟨placingFirmware_low, fun _ fits => fits, ?_⟩
  have runs : returned (loaderKernel selfMappedFirmware samplePlatform freshMachine) = true := by
    decide +kernel
  obtain ⟨jump, final, run⟩ := exists_ok_of_returned runs
  have written : ∀ extent ∈ (finalState (loaderKernel selfMappedFirmware samplePlatform
      freshMachine)).allocated, ¬ extent.Contains 0x5000 := by decide +kernel
  have byte : (finalState (loaderKernel selfMappedFirmware samplePlatform
      freshMachine)).mem 0x5000 ≠ 0xAA := by decide +kernel
  rw [run] at written byte
  refine ⟨jump, final, run, fun contained => byte ?_⟩
  obtain ⟨grants, confined⟩ := contained
  have all : final.allocated = grants := confined.allocated.trans (List.append_nil grants)
  exact confined.outside 0x5000 (all ▸ written)

end VineyardLoader
