import VineyardLoader.Loader.Segments

/-!
# The image of the kernel in the new address space

After `loader_kernel_phdrs` the processor should find the segments of the kernel file at
their addresses. This module says what it finds.

The loader counts the pages of a segment from its size and requests them from its address
on. A page goes to the last segment that requests it, and the file bytes of a segment start
at the beginning of its first page. So the image is right when the addresses are aligned and
the segments keep to pages of their own, as the tables see pages
(`loaderKernelPhdrs_image`). In general the bytes are in place exactly under the conditions
of `Placeable`.

All pages are mapped with the same flags, so the permissions of a segment reach the tables
only when it is both writable and executable.

A segment with an address in the slot of the self-map is mapped through the tables themselves.
What is found then depends on the addresses that the firmware grants, and on file bytes that the
processor takes for entries (`selfMapSegment_unmapped`), so the conditions leave that slot out.
-/

set_option autoImplicit false

namespace VineyardLoader

variable {fw : Firmware} {machine final : Machine} {pml4 : Nat} {header : Elf64Ehdr}
  {phdrs : Block} {parsed : Machine}

/-! ## The whole function -/

/-- What the tables and the segments rest on. -/
def Machine.store (machine : Machine) : Memory × List Extent × List FileRead :=
  (machine.mem, machine.allocated, machine.reads)

theorem Refines.of_store {other : Machine} {space : AddressSpace}
    (refines : Refines machine pml4 space) (same : other.store = machine.store) :
    Refines other pml4 space := by
  simp only [Machine.store, Prod.mk.injEq] at same
  refine refines.of_agree (fun _ _ _ _ _ _ => ?_) fun _ member => ?_
  · rw [same.1]
  · rwa [same.2.1]

theorem HoldsTables.of_store {other : Machine} (holds : HoldsTables machine pml4)
    (same : other.store = machine.store) : HoldsTables other pml4 :=
  holds.elim fun space refines => ⟨space, refines.of_store same⟩

theorem Loaded.of_store {initial first last : Machine} {segments : List LoadedSegment}
    (loaded : Loaded fw pml4 initial segments machine) (start : initial.store = first.store)
    (finish : last.store = machine.store) : Loaded fw pml4 first segments last := by
  have holds := loaded.holds.of_store finish
  simp only [Machine.store, Prod.mk.injEq] at start finish
  obtain ⟨startMem, -, startReads⟩ := start
  obtain ⟨finishMem, finishAllocated, finishReads⟩ := finish
  constructor
  · exact holds
  · rw [finishReads, loaded.reads, startReads]
  · rw [finishMem, ← startMem]
    exact loaded.walks
  · exact loaded.isPages
  · rw [finishAllocated]
    exact loaded.owned
  · rw [finishMem]
    exact loaded.apart
  · exact loaded.disjoint
  · rw [finishMem]
    exact loaded.contents

/-- A run of `loader_kernel_phdrs` that returned has loaded every segment, and what each turn keeps
besides holds of all of them. -/
theorem loaderKernelPhdrs_loaded_and (also : List LoadedSegment → Machine → Prop)
    (holds : HoldsTables machine pml4)
    (parse : loaderParsePhdrs fw header machine = .ok phdrs parsed)
    (inner : ∀ phdr ∈ loadSegments header phdrs, phdr.Inner) (first : also [] machine)
    (stored : ∀ segments before after, after.store = before.store → also segments before →
      also segments after)
    (turns : ∀ segments phdr base before after, phdr ∈ loadSegments header phdrs →
      also segments before → fw.allocatePages before phdr.pages = some base →
        loadSegment fw pml4 phdr before = .ok () after → also (segments ++ [⟨phdr, base⟩]) after)
    (run : loaderKernelPhdrs fw header pml4 machine = .ok () final) :
    ∃ segments, segments.map LoadedSegment.phdr = loadSegments header phdrs ∧
      (∀ segment ∈ segments, segment.Granted fw) ∧ Loaded fw pml4 machine segments final ∧
        also segments final := by
  obtain ⟨table, start, loaded, parse', -, loop, freed⟩ := loaderKernelPhdrs_ok.mp run
  obtain ⟨rfl, rfl⟩ : table = phdrs ∧ start = parsed := by
    rw [parse] at parse'
    cases parse'
    exact ⟨rfl, rfl⟩
  have before : start.store = machine.store :=
    (loaderParsePhdrs_keeps (fun _ _ => rfl) (fun _ _ => rfl) header).ok parse
  have after : final.store = loaded.store :=
    (free_keeps (fun _ _ => rfl) table).ok freed
  obtain ⟨segments, same, granted, all, kept⟩ := Loaded.all_and (holds.of_store before)
    (fun _ => loadSegments_fits) inner (stored _ _ _ before first) turns loop
  exact ⟨segments, same, granted, all.of_store before after, stored _ _ _ after kept⟩

/-- **A run of `loader_kernel_phdrs` that returned has loaded every segment.** -/
theorem loaderKernelPhdrs_loaded (holds : HoldsTables machine pml4)
    (parse : loaderParsePhdrs fw header machine = .ok phdrs parsed)
    (inner : ∀ phdr ∈ loadSegments header phdrs, phdr.Inner)
    (run : loaderKernelPhdrs fw header pml4 machine = .ok () final) :
    ∃ segments, segments.map LoadedSegment.phdr = loadSegments header phdrs ∧
      (∀ segment ∈ segments, segment.Granted fw) ∧ Loaded fw pml4 machine segments final := by
  obtain ⟨segments, same, granted, all, -⟩ := loaderKernelPhdrs_loaded_and (fun _ _ => True) holds
    parse inner trivial (fun _ _ _ _ _ => trivial) (fun _ _ _ _ _ _ _ _ _ => trivial) run
  exact ⟨segments, same, granted, all⟩

/-- The firmware refuses nothing that the loader asks for to load the segments. -/
structure Firmware.Grants (fw : Firmware) (machine : Machine) (segments : List Elf64Phdr) :
    Prop where
  table : fw.allocatePages machine 1 ≠ none
  pages : ∀ phdr ∈ segments, fw.allocatePages machine phdr.pages ≠ none
  pool : fw.freePool machine = true

/-- The source gives a meaning to what `loader_kernel_phdrs` does: the size of the table fits an
`int`, and the segments have room in their pages. -/
structure HasMeaning (fw : Firmware) (header : Elf64Ehdr) (segments : List Elf64Phdr) : Prop where
  small : header.ePhnum * header.ePhentsize < 2 ^ 31
  room : ∀ phdr ∈ segments, phdr.Room fw

/-- **Where `loader_kernel_phdrs` stops** after the table has been read: where the source gives no
meaning to it, or where the firmware refuses something. -/
theorem loaderKernelPhdrs_stops {reason : Halt} {stopped : Machine}
    (parse : loaderParsePhdrs fw header machine = .ok phdrs parsed)
    (run : loaderKernelPhdrs fw header pml4 machine = .error reason stopped) :
    (reason = .undefined ∧ ¬ HasMeaning fw header (loadSegments header phdrs)) ∨
      (reason ≠ .undefined ∧ ¬ fw.Grants stopped (loadSegments header phdrs)) := by
  rw [loaderKernelPhdrs, bind_of_ok parse] at run
  split at run
  · rename_i large
    cases run
    exact .inl ⟨rfl, fun meaning => absurd meaning.small (by omega)⟩
  rw [phdrLoop_eq_forM] at run
  rcases bind_eq_error.mp run with loop | ⟨⟨⟩, loaded, -, freed⟩
  · obtain ⟨phdr, member, before, turn⟩ := forM_error loop
    rcases loadSegment_stops turn with ⟨undefined, full⟩ | ⟨defined, refused | refused⟩
    · exact .inl ⟨undefined, fun meaning => full (meaning.room phdr member)⟩
    · exact .inr ⟨defined, fun grants => grants.pages phdr member refused⟩
    · exact .inr ⟨defined, fun grants => grants.table refused⟩
  · rw [free, bind_of_ok (get_run _)] at freed
    split at freed
    · cases freed
    · rename_i refused
      cases freed
      exact .inr ⟨by simp, fun grants => refused grants.pool⟩

/-- **`loader_kernel_phdrs` stops only when the firmware refuses something**, if the segments
have room. -/
theorem loaderKernelPhdrs_error {reason : Halt} {stopped : Machine}
    (small : header.ePhnum * header.ePhentsize < 2 ^ 31)
    (parse : loaderParsePhdrs fw header machine = .ok phdrs parsed)
    (room : ∀ phdr ∈ loadSegments header phdrs, phdr.Room fw)
    (run : loaderKernelPhdrs fw header pml4 machine = .error reason stopped) :
    ¬ fw.Grants stopped (loadSegments header phdrs) :=
  ((loaderKernelPhdrs_stops parse run).resolve_left fun stops => stops.2 ⟨small, room⟩).2

/-! ## Pages of a segment -/

namespace Elf64Phdr

/-- The pages that hold an address of the segment. -/
def Covers (phdr : Elf64Phdr) (page : Nat) : Prop :=
  ∃ k, k < phdr.pMemsz ∧ pageOf (phdr.address k) = page

/-- The pages that the loader maps for the segment. -/
def Requests (phdr : Elf64Phdr) (page : Nat) : Prop :=
  ∃ i, i < phdr.pages ∧ pageOf (phdr.address (i * 4096)) = page

variable {phdr : Elf64Phdr} {page : Nat}

theorem Requests.covers (fits : phdr.Fits) (requests : phdr.Requests page) : phdr.Covers page := by
  obtain ⟨i, bound, here⟩ := requests
  exact ⟨i * 4096, fits.page_inside bound, here⟩

/-- The pages that the loader maps for a segment are different pages. -/
theorem Inner.request_unique (inner : phdr.Inner) (fits : phdr.Fits) {i j : Nat}
    (first : i < phdr.pages) (second : j < phdr.pages)
    (same : pageOf (phdr.address (i * 4096)) = pageOf (phdr.address (j * 4096))) : i = j := by
  have short := inner.memsz_le_slots
  have firstInside := fits.page_inside first
  have secondInside := fits.page_inside second
  simp only [pageOf, address, pageSize] at same
  omega

/-- In an aligned segment a byte lies in the page with its number. -/
theorem pageOf_aligned (aligned : phdr.pVaddr % 4096 = 0) (k : Nat) :
    pageOf (phdr.address k) = pageOf (phdr.address (k / 4096 * 4096)) := by
  simp only [pageOf, address, pageSize]
  omega

/-- The pages of an aligned segment are the ones that the loader maps for it, if they are counted
right. -/
theorem Covers.requests (covers : phdr.Covers page) (aligned : phdr.pVaddr % 4096 = 0)
    (counted : ∀ k, k < phdr.pMemsz → k / 4096 < phdr.pages) : phdr.Requests page := by
  obtain ⟨k, bound, rfl⟩ := covers
  exact ⟨k / 4096, counted k bound, (pageOf_aligned aligned k).symm⟩

theorem Inner.index_lt (inner : phdr.Inner) {k : Nat} (bound : k < phdr.pMemsz) :
    k / 4096 < phdr.pages := by
  have enough := inner.memsz_le
  omega

end Elf64Phdr

namespace LoadedSegment

variable {segment : LoadedSegment} {page : Nat}

theorem requests_iff :
    segment.phdr.Requests page ↔ ∃ call ∈ segment.calls, pageOf call.virtual = page := by
  constructor
  · rintro ⟨i, bound, here⟩
    exact ⟨_, mem_calls.mpr ⟨i, bound, rfl⟩, here⟩
  · rintro ⟨call, member, here⟩
    obtain ⟨i, bound, rfl⟩ := mem_calls.mp member
    exact ⟨i, bound, here⟩

theorem lastFor_flatMap_eq_none {segments : List LoadedSegment} :
    lastFor (segments.flatMap calls) page = none ↔
      ∀ segment ∈ segments, ¬ segment.phdr.Requests page := by
  rw [lastFor_eq_none]
  constructor
  · intro noCall segment member requests
    obtain ⟨call, callMember, here⟩ := requests_iff.mp requests
    exact noCall call (List.mem_flatMap.mpr ⟨segment, member, callMember⟩) here
  · intro noRequest call member here
    obtain ⟨segment, segmentMember, callMember⟩ := List.mem_flatMap.mp member
    exact noRequest segment segmentMember (requests_iff.mpr ⟨call, callMember, here⟩)

/-- Among the pages of an aligned segment, a byte is in the page with its number. -/
theorem lastFor_calls (inner : segment.phdr.Inner) (fits : segment.phdr.Fits)
    (aligned : segment.phdr.pVaddr % 4096 = 0) {k : Nat} (bound : k < segment.phdr.pMemsz) :
    lastFor segment.calls (pageOf (segment.phdr.address k)) =
      some ⟨segment.base + k / 4096 * 4096, segment.phdr.address (k / 4096 * 4096),
        pagePresent ||| pageWrite⟩ := by
  have index := inner.index_lt bound
  refine lastFor_eq_some (mem_calls.mpr ⟨k / 4096, index, rfl⟩)
    (Elf64Phdr.pageOf_aligned aligned k).symm ?_
  intro other member here
  obtain ⟨i, iBound, rfl⟩ := mem_calls.mp member
  rw [Elf64Phdr.pageOf_aligned aligned k] at here
  rw [inner.request_unique fits iBound index here]
  rfl

/-- Among all segments, a byte of an aligned segment is in the page with its number, unless a
later segment requests its page. -/
theorem lastFor_flatMap {segments before after : List LoadedSegment}
    (split : segments = before ++ segment :: after) (inner : segment.phdr.Inner)
    (fits : segment.phdr.Fits) (aligned : segment.phdr.pVaddr % 4096 = 0) {k : Nat}
    (bound : k < segment.phdr.pMemsz)
    (kept : ∀ later ∈ after, ¬ later.phdr.Requests (pageOf (segment.phdr.address k))) :
    lastFor (segments.flatMap calls) (pageOf (segment.phdr.address k)) =
      some ⟨segment.base + k / 4096 * 4096, segment.phdr.address (k / 4096 * 4096),
        pagePresent ||| pageWrite⟩ := by
  rw [split, List.flatMap_append, List.flatMap_cons, lastFor_append, lastFor_append,
    lastFor_flatMap_eq_none.mpr kept, Option.none_or, lastFor_calls inner fits aligned bound,
    Option.some_or]

end LoadedSegment

namespace Loaded

variable {segments before after : List LoadedSegment} {segment : LoadedSegment}
  {initial : Machine}

/-- Every byte of an aligned segment is found in its place, unless a later segment requests
its page. -/
theorem translate_eq (loaded : Loaded fw pml4 initial segments machine)
    (split : segments = before ++ segment :: after) (inner : segment.phdr.Inner)
    (fits : segment.phdr.Fits) (aligned : segment.phdr.pVaddr % 4096 = 0) {k : Nat}
    (bound : k < segment.phdr.pMemsz)
    (kept : ∀ later ∈ after, ¬ later.phdr.Requests (pageOf (segment.phdr.address k))) :
    translate machine.mem pml4 (segment.phdr.address k) = some (segment.base + k) := by
  rw [translate, loaded.walks _ (inner k bound),
    LoadedSegment.lastFor_flatMap split inner fits aligned bound kept, Option.map_some,
    Option.some_or, Option.map_some, MapCall.translation]
  unfold Elf64Phdr.address pageSize
  congr 1
  simp only
  omega

/-- A page that no segment requests keeps its translation. -/
theorem walk_kept (loaded : Loaded fw pml4 initial segments machine) {v : Nat}
    (innerV : slice v 39 ≠ selfMapSlot)
    (kept : ∀ segment ∈ segments, ¬ segment.phdr.Requests (pageOf v)) :
    walk machine.mem pml4 v = walk initial.mem pml4 v := by
  rw [loaded.walks v innerV, LoadedSegment.lastFor_flatMap_eq_none.mpr kept, Option.map_none,
    Option.none_or]

end Loaded

/-! ## Kernel files -/

/-- The little-endian bytes of a number. -/
def littleEndian : Nat → Nat → List UInt8
  | 0, _ => []
  | width + 1, value => UInt8.ofNat value :: littleEndian width (value / 256)

/-- The 56 bytes of a program header. -/
def Elf64Phdr.encode (phdr : Elf64Phdr) : List UInt8 :=
  littleEndian 4 phdr.pType ++ littleEndian 4 phdr.pFlags ++ littleEndian 8 phdr.pOffset ++
    littleEndian 8 phdr.pVaddr ++ littleEndian 8 phdr.pPaddr ++ littleEndian 8 phdr.pFilesz ++
    littleEndian 8 phdr.pMemsz ++ littleEndian 8 phdr.pAlign

/-- An executable whose program header table follows its header, with data after both. -/
def kernelFile (entry : Nat) (phdrs : List Elf64Phdr) (data : List UInt8) : List UInt8 :=
  [0x7F, 0x45, 0x4C, 0x46, 2, 1, 1, 0] ++ littleEndian 8 0 ++ littleEndian 2 2 ++
    littleEndian 2 62 ++ littleEndian 4 1 ++ littleEndian 8 entry ++ littleEndian 8 64 ++
    littleEndian 8 0 ++ littleEndian 4 0 ++ littleEndian 2 64 ++ littleEndian 2 56 ++
    littleEndian 2 phdrs.length ++ littleEndian 6 0 ++ phdrs.flatMap Elf64Phdr.encode ++ data

/-- The header of a kernel file. -/
def kernelHeader (file : List UInt8) : Elf64Ehdr := readEhdr (bytesOf file)

/-- The way of `loader_kernel` to `loader_kernel_phdrs`: new tables, then the segments. The
address of the top level and the segments that the table lists are returned. -/
def setupAndLoad (fw : Firmware) : Boot (Nat × List Elf64Phdr) := do
  let pml4 ← loaderPagingSetup fw
  let start ← get
  loaderKernelPhdrs fw (kernelHeader fw.kernel) pml4
  match loaderParsePhdrs fw (kernelHeader fw.kernel) start with
  | .ok phdrs _ => return (pml4, loadSegments (kernelHeader fw.kernel) phdrs)
  | .error reason _ => throw reason

/-- A run from new tables, part by part. -/
theorem setupAndLoad_ok {found : Nat × List Elf64Phdr}
    (run : setupAndLoad fw machine = .ok found final) :
    ∃ start phdrs parsed, Refines start found.1 (fun _ => none) ∧
      loaderParsePhdrs fw (kernelHeader fw.kernel) start = .ok phdrs parsed ∧
      found.2 = loadSegments (kernelHeader fw.kernel) phdrs ∧
      loaderKernelPhdrs fw (kernelHeader fw.kernel) found.1 start = .ok () final := by
  obtain ⟨pml4, start, setup, run⟩ := bind_eq_ok.mp run
  rw [bind_of_ok (get_run _)] at run
  obtain ⟨⟨⟩, loaded, load, run⟩ := bind_eq_ok.mp run
  cases parse : loaderParsePhdrs fw (kernelHeader fw.kernel) start with
  | error reason parsed =>
      rw [parse] at run
      cases run
  | ok phdrs parsed =>
      rw [parse] at run
      cases run
      exact ⟨start, phdrs, parsed, loaderPagingSetup_refines setup, parse, rfl, load⟩

/-- Whether the kernel of a firmware is loaded on a fresh machine, with the given table and
a machine that passes a test. -/
def loadsSegments (fw : Firmware) (segments : List Elf64Phdr) (test : Nat → Machine → Bool) :
    Bool :=
  match setupAndLoad fw freshMachine with
  | .ok found final => found.2 == segments && test found.1 final
  | .error _ _ => false

theorem loadsSegments_ok {segments : List Elf64Phdr} {test : Nat → Machine → Bool}
    (check : loadsSegments fw segments test = true) :
    ∃ pml4 final, setupAndLoad fw freshMachine = .ok (pml4, segments) final ∧
      test pml4 final = true := by
  unfold loadsSegments at check
  split at check
  · rename_i found final run
    rw [Bool.and_eq_true, beq_iff_eq] at check
    rw [run, ← check.1]
    exact ⟨found.1, final, rfl, check.2⟩
  · cases check

/-! ## Aligned segments on pages of their own -/

/-- The segments that the loader handles as they are meant: an aligned address, sizes in
order, file bytes in the file, and no address in the slot of the self-map. -/
structure Elf64Phdr.Aligned (fw : Firmware) (phdr : Elf64Phdr) : Prop where
  aligned : phdr.pVaddr % 4096 = 0
  fitsFile : phdr.FitsFile fw
  inner : phdr.Inner

/-- Two segments with no page in common, as the tables see pages. -/
def Elf64Phdr.Apart (first second : Elf64Phdr) : Prop :=
  ∀ page, first.Covers page → ¬ second.Covers page

/-- At canonical addresses the tables see the pages as they are. -/
theorem Elf64Phdr.apart_of_canonical {first second : Elf64Phdr}
    (firstCanonical : ∀ k, k < first.pMemsz → Canonical (first.address k))
    (secondCanonical : ∀ k, k < second.pMemsz → Canonical (second.address k))
    (disjoint : ∀ k, k < first.pMemsz → ∀ l, l < second.pMemsz →
      first.address k / pageSize ≠ second.address l / pageSize) : first.Apart second := by
  rintro page ⟨k, kBound, rfl⟩ ⟨l, lBound, same⟩
  apply disjoint k kBound l lBound
  exact (pageOf_eq_iff (firstCanonical k kBound) (secondCanonical l lBound)).mp same.symm

theorem Elf64Phdr.pairwise_apart {phdrs : List Elf64Phdr}
    (canonical : ∀ phdr ∈ phdrs, ∀ k, k < phdr.pMemsz → Canonical (phdr.address k))
    (disjoint : phdrs.Pairwise fun first second =>
      ∀ k, k < first.pMemsz → ∀ l, l < second.pMemsz →
        first.address k / pageSize ≠ second.address l / pageSize) :
    phdrs.Pairwise Elf64Phdr.Apart :=
  disjoint.imp_of_mem fun firstMember secondMember pages =>
    Elf64Phdr.apart_of_canonical (canonical _ firstMember) (canonical _ secondMember) pages

/-- **The image of the kernel.** Let the tables hold any address space, and let the loadable
segments of a table with entries of 56 bytes be aligned and apart. If the firmware refuses
nothing, `loader_kernel_phdrs` returns. Every byte of a segment is then found at its address:
the byte of the file, or zero after the file bytes. Different segments lie on different
pages of memory, and the pages of no segment keep their translation. -/
theorem loaderKernelPhdrs_image (fw : Firmware) (machine : Machine) (pml4 : Nat) (bytes : Memory)
    (phdrs : Block) (parsed : Machine) (holds : HoldsTables machine pml4)
    (stride : (readEhdr bytes).ePhentsize = 56)
    (parse : loaderParsePhdrs fw (readEhdr bytes) machine = .ok phdrs parsed)
    (aligned : ∀ phdr ∈ loadSegments (readEhdr bytes) phdrs, phdr.Aligned fw)
    (apart : (loadSegments (readEhdr bytes) phdrs).Pairwise Elf64Phdr.Apart)
    (granted : ∀ reason stopped,
      loaderKernelPhdrs fw (readEhdr bytes) pml4 machine = .error reason stopped →
        fw.Grants stopped (loadSegments (readEhdr bytes) phdrs)) :
    ∃ (segments : List LoadedSegment) (final : Machine),
      loaderKernelPhdrs fw (readEhdr bytes) pml4 machine = .ok () final ∧
      segments.map LoadedSegment.phdr = loadSegments (readEhdr bytes) phdrs ∧
      (∀ segment ∈ segments, ∀ k, k < segment.phdr.pMemsz →
        translate final.mem pml4 (segment.phdr.address k) = some (segment.base + k) ∧
          final.mem (segment.base + k) = segment.phdr.imageByte fw k) ∧
      segments.Pairwise (fun first second => first.extent.Disjoint second.extent) ∧
      ∀ v, slice v 39 ≠ selfMapSlot →
        (∀ phdr ∈ loadSegments (readEhdr bytes) phdrs, ¬ phdr.Covers (pageOf v)) →
          walk final.mem pml4 v = walk machine.mem pml4 v := by
  have inner : ∀ phdr ∈ loadSegments (readEhdr bytes) phdrs, phdr.Inner :=
    fun phdr member => (aligned phdr member).inner
  have small : (readEhdr bytes).ePhnum * (readEhdr bytes).ePhentsize < 2 ^ 31 := by
    have count : (readEhdr bytes).ePhnum < 2 ^ 16 := bytes.loadLE_lt 2 56
    rw [stride]
    omega
  obtain ⟨⟨⟩, final, run⟩ := exists_ok_of_not_error fun reason stopped stops =>
    loaderKernelPhdrs_error small parse
      (fun phdr member => (inner phdr member).room (aligned phdr member).fitsFile.ordered) stops
      (granted reason stopped stops)
  obtain ⟨segments, same, -, loaded⟩ := loaderKernelPhdrs_loaded holds parse inner run
  have phdrOf : ∀ segment ∈ segments, segment.phdr ∈ loadSegments (readEhdr bytes) phdrs := by
    intro segment member
    rw [← same]
    exact List.mem_map_of_mem member
  refine ⟨segments, final, run, same, ?_, loaded.disjoint, ?_⟩
  · intro segment member k bound
    have facts := aligned _ (phdrOf segment member)
    refine ⟨?_, loaded.contents segment member facts.inner facts.fitsFile k bound⟩
    obtain ⟨before, after, split⟩ := List.append_of_mem member
    refine loaded.translate_eq split facts.inner (loadSegments_fits (phdrOf segment member))
      facts.aligned bound ?_
    intro later laterMember requests
    have laterFits := loadSegments_fits (phdrOf later (by simp [split, laterMember]))
    rw [← same, split, List.map_append, List.map_cons, List.pairwise_append,
      List.pairwise_cons] at apart
    exact apart.2.1.1 later.phdr (List.mem_map_of_mem laterMember) _ ⟨k, bound, rfl⟩
      (requests.covers laterFits)
  · intro v innerV uncovered
    apply loaded.walk_kept innerV
    intro segment member requests
    exact uncovered _ (phdrOf segment member)
      (requests.covers (loadSegments_fits (phdrOf segment member)))

/-- A segment of two file bytes and two zero bytes, and one of a byte in the upper half. -/
def sampleSegments : List Elf64Phdr :=
  [⟨ptLoad, 6, 176, 0x1000, 0, 2, 4, 0x1000⟩,
    ⟨ptLoad, 7, 178, 0xFFFFFFFF80000000, 0, 1, 1, 0x1000⟩]

/-- A firmware with the sample segments as its kernel. -/
def sampleFirmware : Firmware :=
  bumpFirmware (kernelFile 0x1000 sampleSegments [0x11, 0x22, 0x33]) (by decide +kernel)

theorem sampleSegments_aligned : ∀ phdr ∈ sampleSegments, phdr.Aligned sampleFirmware := by
  intro phdr member
  simp only [sampleSegments, List.mem_cons, List.not_mem_nil, or_false] at member
  rcases member with rfl | rfl
  · exact ⟨by decide, ⟨by decide, by decide +kernel⟩, by unfold Elf64Phdr.Inner; decide⟩
  · exact ⟨by decide, ⟨by decide, by decide +kernel⟩, by unfold Elf64Phdr.Inner; decide⟩

theorem sampleSegments_apart : sampleSegments.Pairwise Elf64Phdr.Apart := by
  simp only [sampleSegments, List.pairwise_cons, List.mem_singleton, forall_eq,
    List.not_mem_nil, false_imp_iff, implies_true, List.Pairwise.nil, and_true]
  exact Elf64Phdr.apart_of_canonical (by decide) (by decide) (by decide)

theorem loaderKernelPhdrs_image_sample :
    ∃ pml4 final,
      setupAndLoad sampleFirmware freshMachine = .ok (pml4, sampleSegments) final ∧
        ∃ physical, translate final.mem pml4 0x1001 = some physical ∧ final.mem physical = 0x22 := by
  have loads : loadsSegments sampleFirmware sampleSegments (fun _ _ => true) = true := by
    decide +kernel
  obtain ⟨pml4, final, run, -⟩ := loadsSegments_ok loads
  refine ⟨pml4, final, run, ?_⟩
  obtain ⟨start, phdrs, parsed, refines, parse, table, load⟩ := setupAndLoad_ok run
  obtain ⟨segments, last, again, same, image, -⟩ :=
    loaderKernelPhdrs_image sampleFirmware start pml4 (bytesOf sampleFirmware.kernel) phdrs parsed
      ⟨_, refines⟩ (by decide +kernel) parse (table ▸ sampleSegments_aligned)
      (table ▸ sampleSegments_apart) fun reason stopped stops => by
        rw [kernelHeader] at load
        rw [load] at stops
        cases stops
  rw [kernelHeader] at load
  rw [load] at again
  cases again
  obtain ⟨first, rest, rfl, phdr, -⟩ := List.map_eq_cons_iff.mp (same.trans table.symm)
  obtain ⟨found, byte⟩ := image first List.mem_cons_self 1 (by rw [phdr]; decide)
  rw [phdr] at found byte
  refine ⟨first.base + 1, found, byte.trans ?_⟩
  decide +kernel

/-- Two segments of one byte whose addresses differ above the bits that the tables use. -/
def aliasedSegments : List Elf64Phdr :=
  [⟨ptLoad, 7, 176, 0x1000, 0, 1, 1, 0x1000⟩,
    ⟨ptLoad, 7, 177, 0x0001000000001000, 0, 1, 1, 0x1000⟩]

def aliasedFirmware : Firmware :=
  bumpFirmware (kernelFile 0x1000 aliasedSegments [0x11, 0x22]) (by decide +kernel)

/-- The page ranges of the two segments are disjoint, but the tables see one page, so the
second segment takes the place of the first. -/
theorem aliasedSegments_misplaced :
    ∃ pml4 final,
      setupAndLoad aliasedFirmware freshMachine = .ok (pml4, aliasedSegments) final ∧
      (kernelHeader aliasedFirmware.kernel).ePhentsize = 56 ∧
      (∀ phdr ∈ aliasedSegments, phdr.Aligned aliasedFirmware ∧ 0 < phdr.pMemsz ∧
        phdr.pMemsz < 2 ^ 47) ∧
      (aliasedSegments.Pairwise fun first second => ∀ k, k < first.pMemsz →
        ∀ l, l < second.pMemsz → first.address k / pageSize ≠ second.address l / pageSize) ∧
      ∃ phdr ∈ aliasedSegments, ∃ physical,
        translate final.mem pml4 (phdr.address 0) = some physical ∧
          final.mem physical ≠ phdr.imageByte aliasedFirmware 0 := by
  have loads : loadsSegments aliasedFirmware aliasedSegments (fun pml4 final =>
      (translate final.mem pml4 0x1000).any fun physical => final.mem physical != 0x11) = true := by
    decide +kernel
  obtain ⟨pml4, final, run, test⟩ := loadsSegments_ok loads
  obtain ⟨physical, found, differs⟩ := Option.any_eq_true _ _ |>.mp test
  have byte :
      Elf64Phdr.imageByte aliasedFirmware ⟨ptLoad, 7, 176, 0x1000, 0, 1, 1, 0x1000⟩ 0 = 0x11 := by
    decide +kernel
  refine ⟨pml4, final, run, by decide +kernel, ?_, ?_, ⟨ptLoad, 7, 176, 0x1000, 0, 1, 1, 0x1000⟩,
    List.mem_cons_self, physical, found, ?_⟩
  · intro phdr member
    simp only [aliasedSegments, List.mem_cons, List.not_mem_nil, or_false] at member
    rcases member with rfl | rfl
    · exact ⟨⟨by decide, ⟨by decide, by decide +kernel⟩, by unfold Elf64Phdr.Inner; decide⟩,
        by decide, by decide⟩
    · exact ⟨⟨by decide, ⟨by decide, by decide +kernel⟩, by unfold Elf64Phdr.Inner; decide⟩,
        by decide, by decide⟩
  · decide
  · rw [byte]
    simpa using differs

/-! ## Bytes in place -/

/-- Every address of a segment is mapped, and its file bytes are found where they were
read to. -/
def InPlace (mem : Memory) (pml4 : Nat) (segments : List LoadedSegment) : Prop :=
  ∀ segment ∈ segments,
    (∀ k, k < segment.phdr.pMemsz → (translate mem pml4 (segment.phdr.address k)).isSome) ∧
      ∀ k, k < segment.phdr.pFilesz →
        translate mem pml4 (segment.phdr.address k) = some (segment.read.buffer + k)

/-- The tables of segments that the loader can put in place: a segment with file bytes has an
aligned address, the pages of every segment are among the pages that the loader maps for
some segment, and no later segment takes a page of file bytes. -/
structure Placeable (phdrs : List Elf64Phdr) : Prop where
  aligned : ∀ phdr ∈ phdrs, 0 < phdr.pFilesz → phdr.pVaddr % 4096 = 0
  covered : ∀ phdr ∈ phdrs, ∀ page, phdr.Covers page → ∃ other ∈ phdrs, other.Requests page
  kept : phdrs.Pairwise fun first second => ∀ k, k < first.pFilesz →
    ¬ second.Requests (pageOf (first.address k))

section InPlace

variable {segments : List LoadedSegment}

/-- From empty tables, an address goes to the page of the last request for its page. -/
theorem Loaded.translate_eq_lastFor (loaded : Loaded fw pml4 machine segments final)
    (empty : Refines machine pml4 fun _ => none) {v : Nat} (innerV : slice v 39 ≠ selfMapSlot) :
    translate final.mem pml4 v =
      (lastFor (segments.flatMap LoadedSegment.calls) (pageOf v)).map fun call =>
        call.physical + v % pageSize := by
  rw [translate, loaded.walks v innerV, empty.walk_eq innerV, Option.map_none, Option.or_none,
    Option.map_map]
  rfl

/-- The frame of a request is a page of a segment. -/
theorem LoadedSegment.lastFor_flatMap_eq_some {page : Nat} {call : MapCall}
    (found : lastFor (segments.flatMap calls) page = some call) :
    ∃ segment ∈ segments, ∃ i, i < segment.phdr.pages ∧ call.physical = segment.base + i * 4096 := by
  obtain ⟨segment, member, callMember⟩ := List.mem_flatMap.mp (lastFor_mem found).1
  obtain ⟨i, bound, rfl⟩ := LoadedSegment.mem_calls.mp callMember
  exact ⟨segment, member, i, bound, rfl⟩

variable (loaded : Loaded fw pml4 machine segments final)
  (empty : Refines machine pml4 fun _ => none)
include loaded empty

/-- An address is mapped when a segment requests its page. -/
theorem Loaded.isSome_translate {v : Nat} (innerV : slice v 39 ≠ selfMapSlot) :
    (translate final.mem pml4 v).isSome ↔
      ∃ segment ∈ segments, segment.phdr.Requests (pageOf v) := by
  rw [loaded.translate_eq_lastFor empty innerV, Option.isSome_map]
  cases found : lastFor (segments.flatMap LoadedSegment.calls) (pageOf v) with
  | none =>
      have noRequest := LoadedSegment.lastFor_flatMap_eq_none.mp found
      simpa using noRequest
  | some call =>
      obtain ⟨member, here⟩ := lastFor_mem found
      obtain ⟨segment, segmentMember, callMember⟩ := List.mem_flatMap.mp member
      have requests := LoadedSegment.requests_iff.mpr ⟨call, callMember, here⟩
      exact iff_of_true rfl ⟨segment, segmentMember, requests⟩

/-- A file byte in its place at the start of a segment means an aligned address. -/
theorem Loaded.aligned_of_inPlace {segment : LoadedSegment} (member : segment ∈ segments)
    (innerV : slice (segment.phdr.address 0) 39 ≠ selfMapSlot) 
    (here : translate final.mem pml4 (segment.phdr.address 0) = some segment.base) :
    segment.phdr.pVaddr % 4096 = 0 := by
  rw [loaded.translate_eq_lastFor empty innerV, Option.map_eq_some_iff] at here
  obtain ⟨call, found, place⟩ := here
  obtain ⟨owner, ownerMember, i, -, frame⟩ := LoadedSegment.lastFor_flatMap_eq_some found
  have ownerAligned := (loaded.isPages owner ownerMember).1
  have aligned := (loaded.isPages segment member).1
  simp only [Elf64Phdr.address, pageSize] at *
  omega

/-- A file byte in its place is on no page of a later segment. -/
theorem Loaded.kept_of_inPlace {before after : List LoadedSegment} {segment later : LoadedSegment}
    (split : segments = before ++ segment :: after) (laterMember : later ∈ after)
    (inner : segment.phdr.Inner) {k : Nat} (bound : k < segment.phdr.pMemsz)
    (here : translate final.mem pml4 (segment.phdr.address k) = some (segment.base + k)) :
    ¬ later.phdr.Requests (pageOf (segment.phdr.address k)) := by
  intro requests
  rw [loaded.translate_eq_lastFor empty (inner k bound), split, List.flatMap_append,
    List.flatMap_cons, lastFor_append, lastFor_append] at here
  cases found : lastFor (after.flatMap LoadedSegment.calls) (pageOf (segment.phdr.address k)) with
  | none => exact LoadedSegment.lastFor_flatMap_eq_none.mp found later laterMember requests
  | some call =>
      rw [found, Option.some_or, Option.some_or, Option.map_some, Option.some.injEq] at here
      obtain ⟨owner, ownerMember, i, iBound, frame⟩ := LoadedSegment.lastFor_flatMap_eq_some found
      have disjoint := loaded.disjoint
      rw [split, List.pairwise_append, List.pairwise_cons] at disjoint
      -- the byte would lie in the pages of both segments
      have enough := inner.memsz_le
      refine disjoint.2.1.1 owner ownerMember (segment.base + k) ?_ ?_
      · rw [LoadedSegment.extent_contains]
        omega
      · rw [LoadedSegment.extent_contains]
        simp only [pageSize] at here
        omega

/-- **The bytes are in place exactly for the tables the loader can place.** -/
theorem Loaded.inPlace_iff (inner : ∀ segment ∈ segments, segment.phdr.Inner)
    (fits : ∀ segment ∈ segments, segment.phdr.Fits)
    (ordered : ∀ segment ∈ segments, segment.phdr.pFilesz ≤ segment.phdr.pMemsz) :
    InPlace final.mem pml4 segments ↔ Placeable (segments.map LoadedSegment.phdr) := by
  constructor
  · intro inPlace
    constructor
    · intro phdr member positive
      obtain ⟨segment, segmentMember, rfl⟩ := List.mem_map.mp member
      have sizes := ordered segment segmentMember
      exact loaded.aligned_of_inPlace empty segmentMember
        (inner segment segmentMember 0 (by omega)) ((inPlace segment segmentMember).2 0 positive)
    · rintro phdr member page ⟨k, bound, rfl⟩
      obtain ⟨segment, segmentMember, rfl⟩ := List.mem_map.mp member
      have mapped := (inPlace segment segmentMember).1 k bound
      rw [loaded.isSome_translate empty (inner segment segmentMember k bound)] at mapped
      obtain ⟨other, otherMember, requests⟩ := mapped
      exact ⟨other.phdr, List.mem_map_of_mem otherMember, requests⟩
    · rw [List.pairwise_map, List.pairwise_iff_forall_sublist]
      intro first second sublist k bound
      obtain ⟨earlier, rest, rfl, firstMember, secondMember⟩ := List.cons_sublist_iff.mp sublist
      obtain ⟨before, between, rfl⟩ := List.append_of_mem firstMember
      have split : before ++ first :: between ++ rest = before ++ first :: (between ++ rest) := by
        simp
      have member : first ∈ before ++ first :: between ++ rest := by simp
      have sizes := ordered first member
      exact loaded.kept_of_inPlace empty split
        (List.mem_append_right between (List.singleton_sublist.mp secondMember))
        (inner first member) (by omega) ((inPlace first member).2 k bound)
  · intro placeable segment member
    have phdrMember := List.mem_map_of_mem (f := LoadedSegment.phdr) member
    constructor
    · intro k bound
      rw [loaded.isSome_translate empty (inner segment member k bound)]
      obtain ⟨other, otherMember, requests⟩ :=
        placeable.covered _ phdrMember _ ⟨k, bound, rfl⟩
      obtain ⟨owner, ownerMember, rfl⟩ := List.mem_map.mp otherMember
      exact ⟨owner, ownerMember, requests⟩
    · intro k bound
      have sizes := ordered segment member
      obtain ⟨before, after, split⟩ := List.append_of_mem member
      refine loaded.translate_eq split (inner segment member) (fits segment member)
        (placeable.aligned _ phdrMember (by omega)) (by omega) ?_
      intro later laterMember
      have kept := placeable.kept
      rw [split, List.map_append, List.map_cons, List.pairwise_append, List.pairwise_cons] at kept
      exact kept.2.1.1 later.phdr (List.mem_map_of_mem laterMember) k bound

end InPlace

/-- `loader_kernel_phdrs` returns, having read each segment once. Every address of a segment is
then mapped, and its file bytes are found where they were read to. -/
def LoadsInPlace (fw : Firmware) (header : Elf64Ehdr) (pml4 : Nat) (machine : Machine)
    (phdrs : List Elf64Phdr) : Prop :=
  ∃ (segments : List LoadedSegment) (final : Machine),
    loaderKernelPhdrs fw header pml4 machine = .ok () final ∧
    segments.map LoadedSegment.phdr = phdrs ∧
    final.reads = machine.reads ++ segments.map LoadedSegment.read ∧
    InPlace final.mem pml4 segments

/-- A loaded segment is known by its program header and its read. -/
theorem LoadedSegment.eq_of_reads {first second : List LoadedSegment}
    (phdrs : first.map phdr = second.map phdr) (reads : first.map read = second.map read) :
    first = second := by
  induction first generalizing second with
  | nil => exact (List.map_eq_nil_iff.mp phdrs.symm).symm
  | cons segment first ih =>
      cases second with
      | nil => cases phdrs
      | cons other second =>
          obtain ⟨samePhdr, phdrs⟩ := List.cons.inj phdrs
          obtain ⟨sameRead, reads⟩ := List.cons.inj reads
          have sameBase : segment.base = other.base := congrArg FileRead.buffer sameRead
          have same : segment = other := by
            cases segment
            cases other
            cases samePhdr
            cases sameBase
            rfl
          rw [same, ih phdrs reads]

/-- **File bytes at any address.** Let the tables be new, and let the loadable segments have sizes
in order. If the firmware refuses nothing, the segments are loaded in place when none of them has
an address in the slot of the self-map, the size of the table fits an `int`, and the table is
`Placeable`. With no address in the slot of the self-map, that is needed too. -/
theorem loaderKernelPhdrs_inPlace_iff (fw : Firmware) (machine : Machine) (pml4 : Nat)
    (header : Elf64Ehdr) (phdrs : Block) (parsed : Machine)
    (empty : Refines machine pml4 fun _ => none)
    (parse : loaderParsePhdrs fw header machine = .ok phdrs parsed)
    (ordered : ∀ phdr ∈ loadSegments header phdrs, phdr.pFilesz ≤ phdr.pMemsz)
    (granted : ∀ reason stopped,
      loaderKernelPhdrs fw header pml4 machine = .error reason stopped →
        fw.Grants stopped (loadSegments header phdrs)) :
    ((∀ phdr ∈ loadSegments header phdrs, phdr.Inner) ∧
        header.ePhnum * header.ePhentsize < 2 ^ 31 ∧ Placeable (loadSegments header phdrs) →
      LoadsInPlace fw header pml4 machine (loadSegments header phdrs)) ∧
    ((∀ phdr ∈ loadSegments header phdrs, phdr.Inner) →
      LoadsInPlace fw header pml4 machine (loadSegments header phdrs) →
        header.ePhnum * header.ePhentsize < 2 ^ 31 ∧ Placeable (loadSegments header phdrs)) := by
  -- what a run that returned has put in place
  have placed : (∀ phdr ∈ loadSegments header phdrs, phdr.Inner) → ∀ final,
      loaderKernelPhdrs fw header pml4 machine = .ok () final →
        ∃ segments : List LoadedSegment,
          segments.map LoadedSegment.phdr = loadSegments header phdrs ∧
          final.reads = machine.reads ++ segments.map LoadedSegment.read ∧
          (InPlace final.mem pml4 segments ↔ Placeable (loadSegments header phdrs)) := by
    intro inner final run
    obtain ⟨segments, same, -, loaded⟩ := loaderKernelPhdrs_loaded ⟨_, empty⟩ parse inner run
    have phdrOf : ∀ segment ∈ segments, segment.phdr ∈ loadSegments header phdrs := by
      intro segment member
      rw [← same]
      exact List.mem_map_of_mem member
    refine ⟨segments, same, loaded.reads, ?_⟩
    rw [← same]
    exact loaded.inPlace_iff empty (fun segment member => inner _ (phdrOf segment member))
      (fun segment member => loadSegments_fits (phdrOf segment member))
      (fun segment member => ordered _ (phdrOf segment member))
  constructor
  · rintro ⟨inner, small, placeable⟩
    obtain ⟨⟨⟩, final, run⟩ := exists_ok_of_not_error fun reason stopped stops =>
      loaderKernelPhdrs_error small parse
        (fun phdr member => (inner phdr member).room (ordered phdr member)) stops
        (granted reason stopped stops)
    obtain ⟨segments, same, reads, inPlace⟩ := placed inner final run
    exact ⟨segments, final, run, same, reads, inPlace.mpr placeable⟩
  · rintro inner ⟨segments, final, run, same, reads, inPlace⟩
    obtain ⟨-, -, -, -, small, -⟩ := loaderKernelPhdrs_ok.mp run
    obtain ⟨others, otherSame, otherReads, placeable⟩ := placed inner final run
    obtain rfl := LoadedSegment.eq_of_reads (same.trans otherSame.symm)
      (List.append_cancel_left (reads.symm.trans otherReads))
    exact ⟨small, placeable.mp inPlace⟩

/-- Aligned segments on pages of their own can be placed. -/
theorem Placeable.of_aligned {phdrs : List Elf64Phdr} (fits : ∀ phdr ∈ phdrs, phdr.Fits)
    (aligned : ∀ phdr ∈ phdrs, phdr.Aligned fw) (apart : phdrs.Pairwise Elf64Phdr.Apart) :
    Placeable phdrs where
  aligned phdr member _ := (aligned phdr member).aligned
  covered phdr member _ covers := ⟨phdr, member, covers.requests (aligned phdr member).aligned
    fun _ bound => (aligned phdr member).inner.index_lt bound⟩
  kept := apart.imp_of_mem fun {first second} firstMember secondMember pages k bound requests =>
    pages _ ⟨k, Nat.lt_of_lt_of_le bound (aligned first firstMember).fitsFile.ordered, rfl⟩
      (requests.covers (fits second secondMember))

theorem loaderKernelPhdrs_inPlace_sample :
    ∃ start pml4, Refines start pml4 (fun _ => none) ∧
      LoadsInPlace sampleFirmware (kernelHeader sampleFirmware.kernel) pml4 start
        sampleSegments := by
  have loads : loadsSegments sampleFirmware sampleSegments (fun _ _ => true) = true := by
    decide +kernel
  obtain ⟨pml4, final, run, -⟩ := loadsSegments_ok loads
  obtain ⟨start, phdrs, parsed, refines, parse, table, load⟩ := setupAndLoad_ok run
  have places := (loaderKernelPhdrs_inPlace_iff sampleFirmware start pml4 _ phdrs parsed refines parse
    (table ▸ fun phdr member => (sampleSegments_aligned phdr member).fitsFile.ordered)
    fun reason stopped stops => by
      rw [load] at stops
      cases stops).1
  have fits : ∀ phdr ∈ loadSegments (kernelHeader sampleFirmware.kernel) phdrs, phdr.Fits :=
    fun phdr member => loadSegments_fits member
  rw [← table] at places fits
  exact ⟨start, pml4, refines, places ⟨fun phdr member => (sampleSegments_aligned phdr member).inner,
    by decide +kernel, Placeable.of_aligned fits sampleSegments_aligned sampleSegments_apart⟩⟩

/-- A segment whose address is in the middle of a page, as its file offset is. -/
def unalignedSegment : Elf64Phdr := ⟨ptLoad, 5, 120, 0x400078, 0, 4, 4, 0x1000⟩

def unalignedFirmware : Firmware :=
  bumpFirmware (kernelFile 0x400078 [unalignedSegment] [0x11, 0x22, 0x33, 0x44])
    (by decide +kernel)

/-- The file bytes go to the start of the page, and the address of the segment is not
there. -/
theorem unalignedSegment_misplaced :
    ∃ pml4 base final,
      setupAndLoad unalignedFirmware freshMachine = .ok (pml4, [unalignedSegment]) final ∧
      unalignedSegment.pFilesz ≤ unalignedSegment.pMemsz ∧
      unalignedSegment.pVaddr % unalignedSegment.pAlign =
        unalignedSegment.pOffset % unalignedSegment.pAlign ∧
      final.reads = [LoadedSegment.read ⟨unalignedSegment, base⟩] ∧
      ¬ InPlace final.mem pml4 [⟨unalignedSegment, base⟩] := by
  have loads : loadsSegments unalignedFirmware [unalignedSegment] (fun pml4 final =>
      final.reads == [LoadedSegment.read ⟨unalignedSegment, 0x101000⟩] &&
        translate final.mem pml4 0x400078 != some 0x101000) = true := by decide +kernel
  obtain ⟨pml4, final, run, test⟩ := loadsSegments_ok loads
  rw [Bool.and_eq_true, beq_iff_eq, bne_iff_ne] at test
  refine ⟨pml4, 0x101000, final, run, by decide, by decide, test.1, fun inPlace => ?_⟩
  exact test.2 ((inPlace _ List.mem_cons_self).2 0 (by decide))

/-! ## Permissions -/

section Permissions

variable {segments : List LoadedSegment}

/-- From empty tables, every mapped page is writable and executable. -/
theorem Loaded.walk_eq (loaded : Loaded fw pml4 machine segments final)
    (empty : Refines machine pml4 fun _ => none) {v : Nat} {translation : Translation}
    (innerV : slice v 39 ≠ selfMapSlot) (found : walk final.mem pml4 v = some translation) :
    (∃ segment ∈ segments, segment.phdr.Requests (pageOf v)) ∧
      translation.flags = pagePresent ||| pageWrite ∧ translation.writable = true ∧
        translation.noExecute = false := by
  rw [loaded.walks v innerV, empty.walk_eq innerV, Option.map_none, Option.or_none,
    Option.map_eq_some_iff] at found
  obtain ⟨call, last, rfl⟩ := found
  obtain ⟨member, here⟩ := lastFor_mem last
  obtain ⟨segment, segmentMember, callMember⟩ := List.mem_flatMap.mp member
  refine ⟨⟨segment, segmentMember, LoadedSegment.requests_iff.mpr ⟨call, callMember, here⟩⟩, ?_⟩
  obtain ⟨i, -, rfl⟩ := LoadedSegment.mem_calls.mp callMember
  simp only [MapCall.translation]
  decide

end Permissions

/-- Every segment that covers a page is both writable and executable, and every such page is among
the pages that the loader maps for some segment. -/
def PermissionsReach (phdrs : List Elf64Phdr) : Prop :=
  ∀ phdr ∈ phdrs, ∀ page, phdr.Covers page →
    phdr.pFlags &&& ptW ≠ 0 ∧ phdr.pFlags &&& ptX ≠ 0 ∧ ∃ other ∈ phdrs, other.Requests page

/-- A segment that may only be read. -/
def readOnlySegment : Elf64Phdr := ⟨ptLoad, 4, 120, 0x400000, 0, 4, 4, 0x1000⟩

theorem Placeable.singleton {phdr : Elf64Phdr} (aligned : phdr.pVaddr % 4096 = 0)
    (counted : ∀ k, k < phdr.pMemsz → k / 4096 < phdr.pages) : Placeable [phdr] where
  aligned other member _ := List.mem_singleton.mp member ▸ aligned
  covered other member page covers := by
    obtain rfl := List.mem_singleton.mp member
    exact ⟨other, member, covers.requests aligned counted⟩
  kept := List.pairwise_singleton _ _

/-- A segment on the page whose leaf entry is the self-map itself. -/
def selfMapSegment : Elf64Phdr := ⟨ptLoad, 7, 120, 0xFFFFFF7FBFDFE000, 0, 4, 4, 0x1000⟩

def selfMapFirmware : Firmware :=
  bumpFirmware (kernelFile 0x400000 [selfMapSegment] [0x11, 0x22, 0x33, 0x44]) (by decide +kernel)

/-- A segment on another page of the slot. -/
def selfSlotSegment : Elf64Phdr := ⟨ptLoad, 7, 120, 0xFFFFFF0000000000, 0, 4, 4, 0x1000⟩

def selfSlotFirmware : Firmware :=
  bumpFirmware (kernelFile 0x400000 [selfSlotSegment] [0x11, 0x22, 0x33, 0x44]) (by decide +kernel)

/-- **In the slot of the self-map a segment can take the place of the tables.** The first segment
is aligned and alone, and may be written and executed, but its mapping overwrites the self-map and
it is not found. The second one is found. -/
theorem selfMapSegment_unmapped :
    (Placeable [selfMapSegment] ∧ PermissionsReach [selfMapSegment] ∧ ∃ pml4 final,
      setupAndLoad selfMapFirmware freshMachine = .ok (pml4, [selfMapSegment]) final ∧
        walk final.mem pml4 (selfMapSegment.address 0) = none) ∧
    ∃ pml4 final, setupAndLoad selfSlotFirmware freshMachine = .ok (pml4, [selfSlotSegment]) final ∧
      (walk final.mem pml4 (selfSlotSegment.address 0)).isSome := by
  have loads : loadsSegments selfMapFirmware [selfMapSegment] (fun pml4 final =>
      (walk final.mem pml4 (selfMapSegment.address 0)).isNone) = true := by decide +kernel
  have slotLoads : loadsSegments selfSlotFirmware [selfSlotSegment] (fun pml4 final =>
      (walk final.mem pml4 (selfSlotSegment.address 0)).isSome) = true := by decide +kernel
  have placeable : Placeable [selfMapSegment] := .singleton (by decide) (by decide)
  obtain ⟨pml4, final, run, unmapped⟩ := loadsSegments_ok loads
  obtain ⟨slotPml4, slotFinal, slotRun, mapped⟩ := loadsSegments_ok slotLoads
  refine ⟨⟨placeable, ?_, pml4, final, run, Option.isNone_iff_eq_none.mp unmapped⟩, slotPml4,
    slotFinal, slotRun, mapped⟩
  intro phdr member page covers
  have reached := placeable.covered phdr member page covers
  obtain rfl := List.mem_singleton.mp member
  exact ⟨by decide, by decide, reached⟩

end VineyardLoader
