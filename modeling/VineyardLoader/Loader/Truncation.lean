import VineyardLoader.Loader.Header

/-!
# Kernel files that are cut short

`Read` succeeds at the end of a file with fewer bytes than it was asked for. The loader does
not look at the size that it leaves, so a header, a program header table or a segment that the
file does not hold whole is used with whatever was in memory before.

Only a read past the end of the file is an error (`Rejected`). On a platform that refuses nothing,
every other file that the check of the header lets through is started, or takes the loader to a
place where the source gives no meaning to it: the size of the table overflows an `int`, or a
segment does not fit in its pages (`loaderKernel_started`). The loader has no check there either,
so such a file is not counted as stopped (`StartedOnlyRead`), and short files are safe only by
`Rejected` (`truncated_kernel_iff`).
-/

set_option autoImplicit false

namespace VineyardLoader

variable {fw : Firmware} {platform : Platform} {machine middle final : Machine} {pml4 : Nat}
  {header : Elf64Ehdr} {phdrs : Block} {reason : Halt} {stopped : Machine}

/-! ## Whole files -/

/-- A part of the file that is there and is read: every byte lies in the file, and a read at
the offset gives these bytes. -/
structure Firmware.Holds (fw : Firmware) (offset size : Nat) : Prop where
  inside : ∀ k, k < size → offset + k < fw.kernel.length
  length : (fw.fileBytes offset size).length = size
  bytes : ∀ k, k < size → (fw.fileBytes offset size).getD k 0 = fw.kernel.getD (offset + k) 0

/-- The header, the program header table and the bytes of every loadable segment are in the
file and are read. The loop over the table visits its entries only if the size of the table fits
an `int`. -/
structure FullyRead (fw : Firmware) (header : Elf64Ehdr) (phdrs : Block) : Prop where
  visited : header.ePhnum * header.ePhentsize < 2 ^ 31
  ehdr : fw.Holds 0 64
  table : fw.Holds header.ePhoff (header.ePhnum * header.ePhentsize)
  segments : ∀ phdr ∈ loadSegments header phdrs, fw.Holds phdr.pOffset phdr.pFilesz

/-- A part of no bytes, or one that ends in the file. -/
def Firmware.Contains (fw : Firmware) (offset size : Nat) : Prop :=
  size = 0 ∨ offset + size ≤ fw.kernel.length

/-- The length of the file covers what its headers speak of, and the size of the table fits an
`int`. -/
structure LongEnough (fw : Firmware) (header : Elf64Ehdr) (phdrs : Block) : Prop where
  visited : header.ePhnum * header.ePhentsize < 2 ^ 31
  ehdr : fw.Contains 0 64
  table : fw.Contains header.ePhoff (header.ePhnum * header.ePhentsize)
  segments : ∀ phdr ∈ loadSegments header phdrs, fw.Contains phdr.pOffset phdr.pFilesz

/-- What the file contains is read. -/
theorem Firmware.holds_iff {offset size : Nat} : fw.Holds offset size ↔ fw.Contains offset size := by
  constructor
  · intro holds
    rcases Nat.eq_zero_or_pos size with zero | positive
    · exact .inl zero
    · have last := holds.inside (size - 1) (by omega)
      exact .inr (by omega)
  · rintro (rfl | ends)
    · have empty := fw.fileBytes_length offset 0
      exact ⟨fun _ below => absurd below (Nat.not_lt_zero _), Nat.le_zero.mp empty,
        fun _ below => absurd below (Nat.not_lt_zero _)⟩
    · obtain ⟨length, bytes⟩ := fw.fileBytes_inside ends
      exact ⟨fun _ below => by omega, length, bytes⟩

theorem fullyRead_iff : FullyRead fw header phdrs ↔ LongEnough fw header phdrs := by
  constructor
  · intro read
    exact ⟨read.visited, Firmware.holds_iff.mp read.ehdr, Firmware.holds_iff.mp read.table,
      fun phdr member => Firmware.holds_iff.mp (read.segments phdr member)⟩
  · intro long
    exact ⟨long.visited, Firmware.holds_iff.mpr long.ehdr, Firmware.holds_iff.mpr long.table,
      fun phdr member => Firmware.holds_iff.mpr (long.segments phdr member)⟩

/-- The table that is used: what was read of it over what the pool held before. -/
def tableBlock (fw : Firmware) (header : Elf64Ehdr) (address : Nat) (old : Memory) : Block :=
  let size := header.ePhnum * header.ePhentsize
  let data := fw.fileBytes header.ePhoff size
  ⟨address, size, old.overwrite 0 data.length (bytesOf data)⟩

/-- The files at which `loader_parse_phdrs` stops: the table starts past the end of the file, where
`Read` is an error. The largest position stands for the end of the file. -/
def Rejected (fw : Firmware) (header : Elf64Ehdr) : Prop :=
  fw.kernel.length < header.ePhoff ∧ header.ePhoff ≠ 2 ^ 64 - 1

/-! ## The table -/

/-- The machine with the file at a position. -/
def Machine.seek (machine : Machine) (fw : Firmware) (position : Nat) : Machine :=
  { machine with position := if position = 2 ^ 64 - 1 then fw.kernel.length else position }

/-- The machine with a block for the table. -/
def Machine.pooled (machine : Machine) (fw : Firmware) (header : Elf64Ehdr) : Machine :=
  { machine.seek fw header.ePhoff with
    memoryMap := fw.mapAfter (machine.seek fw header.ePhoff) }

section Table

variable {address : Nat} {old : Memory}
  (pool : fw.allocatePool (machine.seek fw header.ePhoff) (header.ePhnum * header.ePhentsize) =
    some (address, old))
include pool

/-- The block is there, and the read decides. -/
theorem loaderParsePhdrs_of_read {status : EfiStatus} {data : List UInt8} {after : Machine}
    (read : readFile fw (header.ePhnum * header.ePhentsize) (machine.pooled fw header) =
      .ok (status, data) after) :
    loaderParsePhdrs fw header machine =
      if status.isError then .error .exit after
      else .ok ⟨address, header.ePhnum * header.ePhentsize,
        old.overwrite 0 data.length (bytesOf data)⟩ after := by
  have moved : setPosition fw header.ePhoff machine = .ok () (machine.seek fw header.ePhoff) := rfl
  have given : callAllocatePool fw (header.ePhnum * header.ePhentsize)
      (machine.seek fw header.ePhoff) =
        .ok (some ⟨address, header.ePhnum * header.ePhentsize, old⟩)
          (machine.pooled fw header) := by
    rw [callAllocatePool, bind_of_ok (get_run _), pool]
    rfl
  rw [loaderParsePhdrs, bind_of_ok moved, bind_of_ok given, orExit, bind_of_ok (pure_run _ _),
    bind_of_ok read]
  dsimp only
  split
  · rfl
  · rfl

/-- A table that starts in the file is read, however much of it is there. -/
theorem loaderParsePhdrs_run (present : ¬ Rejected fw header) :
    ∃ parsed, loaderParsePhdrs fw header machine =
      .ok (tableBlock fw header address old) parsed := by
  have inside : ¬ fw.kernel.length <
      (if header.ePhoff = 2 ^ 64 - 1 then fw.kernel.length else header.ePhoff) := by
    split
    · exact Nat.lt_irrefl _
    · rename_i given
      exact fun past => present ⟨past, given⟩
  have data : fw.fileBytes header.ePhoff (header.ePhnum * header.ePhentsize) =
      (fw.kernel.drop (if header.ePhoff = 2 ^ 64 - 1 then fw.kernel.length else header.ePhoff)).take
        (header.ePhnum * header.ePhentsize) := if_neg inside
  have read : readFile fw (header.ePhnum * header.ePhentsize) (machine.pooled fw header) =
      .ok (.success, _) _ := congrFun (if_neg inside) _
  rw [tableBlock, data]
  exact ⟨_, loaderParsePhdrs_of_read pool read⟩

/-- A table past the end of the file is an error. -/
theorem loaderParsePhdrs_past (rejected : Rejected fw header) :
    ∃ parsed, loaderParsePhdrs fw header machine = .error .exit parsed := by
  have outside : fw.kernel.length <
      (if header.ePhoff = 2 ^ 64 - 1 then fw.kernel.length else header.ePhoff) := by
    rw [if_neg rejected.2]
    exact rejected.1
  have read : readFile fw (header.ePhnum * header.ePhentsize) (machine.pooled fw header) =
      .ok (.error 7, _) _ := congrFun (if_pos outside) _
  exact ⟨_, loaderParsePhdrs_of_read pool read⟩

/-- **A rejected file makes the loader exit** before any segment. -/
theorem loaderKernelPhdrs_rejected (pml4 : Nat) (rejected : Rejected fw header) :
    ∃ parsed, loaderKernelPhdrs fw header pml4 machine = .error .exit parsed := by
  obtain ⟨parsed, stops⟩ := loaderParsePhdrs_past pool rejected
  exact ⟨parsed, by rw [loaderKernelPhdrs, bind_run, stops]⟩

/-- **The segments of any other file are loaded**, unless the firmware refuses something or the
source gives no meaning to it. -/
theorem loaderKernelPhdrs_refused (present : ¬ Rejected fw header)
    (run : loaderKernelPhdrs fw header pml4 machine = .error reason stopped) :
    reason = .undefined ∨
      ¬ fw.Grants stopped (loadSegments header (tableBlock fw header address old)) := by
  obtain ⟨parsed, parse⟩ := loaderParsePhdrs_run pool present
  exact (loaderKernelPhdrs_stops parse run).imp And.left And.right

end Table

/-! ## After the segments -/

/-- A platform that answers every call: the file can be closed, the image of the loader is
found, and there is a graphics output that answers for its modes. -/
structure Platform.Answers (platform : Platform) : Prop where
  close : ∀ machine, (platform.closeKernel machine).isError = false
  image : ∀ machine, platform.loadedImage machine ≠ none
  handles : ∀ machine, ∃ count, platform.gopHandles machine = some (count + 1)
  gop : ∀ machine, ∃ gop, platform.openGop machine 0 = some (some gop) ∧
    ∀ i, i < gop.maxMode → gop.queryMode i ≠ none

/-- The firmware refuses nothing that the loader asks for after the check of the header, and
it lets boot services be left with the key that `GetMemoryMap` gives. -/
structure Firmware.Serves (fw : Firmware) (machine : Machine) (segments : List Elf64Phdr) :
    Prop where
  grants : fw.Grants machine segments
  stack : fw.allocatePages machine 33 ≠ none
  exit : fw.acceptsExit machine machine.memoryMap.key = true
  small : ∀ key size, (fw.tooSmall machine key size).2 ≠ 0 ∧
    fw.acceptsExit machine (fw.tooSmall machine key size).1 = true

theorem callAllocatePool_returns (size : Nat) : Returns (callAllocatePool fw size) := by
  intro machine
  rw [callAllocatePool, bind_of_ok (get_run _)]
  cases fw.allocatePool machine size with
  | none => exact ⟨_, _, rfl⟩
  | some block => exact ⟨_, _, rfl⟩

theorem modeLoop_returns {gop : Gop} (answers : ∀ i, i < gop.maxMode → gop.queryMode i ≠ none) :
    ∀ {remaining i maxW maxH selection : Nat}, i + remaining = gop.maxMode →
      Returns (modeLoop fw platform gop remaining i maxW maxH selection) := by
  intro remaining
  induction remaining with
  | zero => exact fun _ => Returns.pure _
  | succ remaining ih =>
      intro i maxW maxH selection total
      obtain ⟨⟨width, h⟩, known⟩ := Option.ne_none_iff_exists'.mp (answers i (by omega))
      rw [modeLoop, known]
      refine (callAllocatePool_returns 8).bind fun _ => (Returns.modify _).bind fun _ => ?_
      refine (Returns.pure (width, h)).bind fun _ => Returns.ite (fun _ => ?_) fun _ => ?_
      · exact (Returns.modify _).bind fun _ => Returns.pure _
      · exact Returns.ite (fun _ => ih (by omega)) fun _ => ih (by omega)

theorem framebufferSetup_returns {gop : Gop}
    (answers : ∀ i, i < gop.maxMode → gop.queryMode i ≠ none) :
    Returns (framebufferSetup fw platform gop) := by
  refine (modeLoop_returns answers (Nat.zero_add _)).bind fun answer => ?_
  cases answer with
  | none => exact Returns.pure _
  | some selection =>
      exact Returns.ite (fun _ => (Returns.modify _).bind fun _ => Returns.pure _)
        fun _ => Returns.pure _

/-- The first handle has the graphics output. -/
theorem framebufferMode_returns (answers : platform.Answers) :
    Returns (framebufferMode fw platform) := by
  intro machine
  obtain ⟨count, handles⟩ := answers.handles machine
  obtain ⟨gop, opens, modes⟩ := answers.gop { machine with memoryMap := fw.mapAfter machine }
  have found : efiGopGet fw platform machine =
      .ok (some gop) { machine with memoryMap := fw.mapAfter machine } := by
    rw [efiGopGet, bind_of_ok (get_run _), handles, orExit, bind_of_ok (pure_run _ _), touchMap,
      bind_of_ok (modify_run _ _), gopLoop, bind_of_ok (get_run _), opens]
    rfl
  rw [framebufferMode, bind_of_ok found]
  exact (framebufferSetup_returns modes).bind (fun _ => Returns.get.bind fun _ => Returns.pure _) _

/-- The objects are set up unless the firmware refuses pages. -/
theorem loaderKernelSetUp_error (answers : platform.Answers)
    (run : loaderKernelSetUp fw platform pml4 machine = .error reason stopped) :
    fw.allocatePages stopped 1 = none ∨ fw.allocatePages stopped 33 = none := by
  rw [loaderKernelSetUp, bind_of_ok (get_run _)] at run
  rcases check_eq_error.mp run with ⟨fails, -, -⟩ | ⟨-, run⟩
  · rw [answers.close] at fails
    cases fails
  rcases bind_eq_error.mp run with alloc | ⟨stack, _, -, run⟩
  · obtain ⟨refused, -, rfl⟩ := uefiAllocPages_error.mp alloc
    exact .inr refused
  rcases bind_eq_error.mp run with alloc | ⟨info, _, -, run⟩
  · obtain ⟨refused, -, rfl⟩ := uefiAllocPages_error.mp alloc
    exact .inl refused
  rcases bind_eq_error.mp run with maps | ⟨⟨⟩, _, -, run⟩
  · exact .inl (loaderPagingMapAll_error maps).2
  rw [bind_of_ok (writeWord_run _ _ _)] at run
  rcases bind_eq_error.mp run with graphics | ⟨mode, _, -, run⟩
  · obtain ⟨mode, shown, returns⟩ := framebufferMode_returns answers _
    rw [returns] at graphics
    cases graphics
  rcases bind_eq_error.mp run with maps | ⟨⟨⟩, asked, -, run⟩
  · exact .inl (loaderPagingMapAll_error maps).2
  rcases bind_eq_error.mp run with finds | ⟨image, _, -, run⟩
  · obtain ⟨image, found⟩ := Option.ne_none_iff_exists'.mp (answers.image asked)
    rw [efiGetImage, bind_of_ok (get_run _), found] at finds
    cases finds
  rcases bind_eq_error.mp run with maps | ⟨⟨⟩, _, -, run⟩
  · exact .inl (loaderPagingMapAll_error maps).2
  · cases run

/-- With the buffer in place, the rest stops only when the key is refused or the answer for a
buffer that is too small has descriptors of no size. -/
theorem fetchMemoryMap_error {info : Info} {arguments : MapAnswer} {segments : List Elf64Phdr}
    (run : fetchMemoryMap fw info arguments machine = .error reason stopped) :
    ¬ fw.Serves stopped segments := by
  intro serves
  cases fails : fw.mapError machine with
  | some code =>
      rw [fetchMemoryMap_fails fails] at run
      cases run
  | none =>
      by_cases enough : machine.memoryMap.bytes.length ≤ arguments.size
      · rw [fetchMemoryMap_fits fails enough] at run
        rcases bind_eq_error.mp run with exits | ⟨⟨⟩, left, -, done⟩
        · obtain ⟨refused, rfl⟩ := exitBootServices_error exits
          exact absurd serves.exit (Bool.eq_false_iff.mp refused)
        · cases done
      · rw [fetchMemoryMap_outgrown fails (Nat.lt_of_not_le enough)] at run
        rcases check_eq_error.mp run with ⟨zero, -, rfl⟩ | ⟨-, run⟩
        · exact (serves.small _ _).1 zero
        rcases bind_eq_error.mp run with exits | ⟨⟨⟩, left, -, done⟩
        · obtain ⟨refused, rfl⟩ := exitBootServices_error exits
          exact absurd (serves.small _ _).2 (Bool.eq_false_iff.mp refused)
        · cases done

/-- The memory map is fetched unless the firmware refuses something. -/
theorem efiGetMemoryMap_error {info : Info} {segments : List Elf64Phdr}
    (run : efiGetMemoryMap fw platform info pml4 machine = .error reason stopped) :
    ¬ fw.Serves stopped segments := by
  rcases efiGetMemoryMap_cases fw platform info pml4 machine with
    ⟨_, _, returns, -⟩ | ⟨buffer, asked, arguments, maps, -⟩
  · rw [returns] at run
    cases run
  · rw [maps] at run
    rcases bind_eq_error.mp run with maps | ⟨⟨⟩, mapped, -, fetch⟩
    · have flags : pageWrite ||| pagePresent = identityFlags := rfl
      rw [flags, loaderPagingMapAddr_eq] at maps
      exact fun serves => serves.grants.table (loaderPagingMapAll_error maps).2
    · exact fetchMemoryMap_error fetch

/-! ## Reaching the jump -/

section Started

variable {opened : Opened} {address : Nat} {old : Memory}
  (opens : loaderKernelOpen fw platform machine = .ok opened middle)
  (accepted : elfHeaderCheck opened.header middle = .ok () middle)
  (pool : fw.allocatePool (middle.seek fw opened.header.ePhoff)
    (opened.header.ePhnum * opened.header.ePhentsize) = some (address, old))
include opens accepted pool

/-- **A rejected file makes the loader exit.** -/
theorem loaderKernel_rejected (rejected : Rejected fw opened.header) :
    ∃ stopped, loaderKernel fw platform machine = .error .exit stopped := by
  obtain ⟨stopped, stops⟩ := loaderKernelPhdrs_rejected pool opened.pml4 rejected
  refine ⟨stopped, ?_⟩
  rw [loaderKernel_eq, bind_of_ok opens, bind_of_ok accepted, loaderKernelLoad, bind_run, stops]

/-- **Any other file is started**, if the platform refuses nothing, or the source gives no meaning
to what the loader does with it. -/
theorem loaderKernel_started (answers : platform.Answers)
    (serves : ∀ reason stopped, loaderKernel fw platform machine = .error reason stopped →
      fw.Serves stopped (loadSegments opened.header (tableBlock fw opened.header address old)))
    (present : ¬ Rejected fw opened.header) :
    (∃ jump final, loaderKernel fw platform machine = .ok jump final) ∨
      ∃ stopped, loaderKernel fw platform machine = .error .undefined stopped := by
  cases run : loaderKernel fw platform machine with
  | ok jump final => exact .inl ⟨jump, final, rfl⟩
  | error reason stopped =>
      right
      have served := serves reason stopped run
      rw [loaderKernel_eq, bind_of_ok opens, bind_of_ok accepted] at run
      rcases bind_eq_error.mp run with loads | ⟨⟨⟩, loaded, -, run⟩
      · rcases loaderKernelPhdrs_refused pool present loads with rfl | refused
        · exact ⟨stopped, rfl⟩
        · exact absurd served.grants refused
      exfalso
      rcases bind_eq_error.mp run with sets | ⟨objects, before, -, run⟩
      · exact (loaderKernelSetUp_error answers sets).elim served.grants.table served.stack
      rcases bind_eq_error.mp run with fetch | ⟨⟨status, info⟩, last, -, done⟩
      · exact efiGetMemoryMap_error fetch served
      · cases done

end Started

/-- The kernel is started only with a header, a table and segments that are in the file and were
read. Where the source gives no meaning to a run, the loader is not taken to have stopped. -/
def StartedOnlyRead (fw : Firmware) (platform : Platform) (machine : Machine)
    (header : Elf64Ehdr) (phdrs : Block) : Prop :=
  ((∃ jump final, loaderKernel fw platform machine = .ok jump final) ∨
      ∃ stopped, loaderKernel fw platform machine = .error .undefined stopped) →
    FullyRead fw header phdrs

/-- **Kernel files that are cut short.** Let the check of the header let a file through. The
kernel is started only with what was read if the file is long enough for what its headers speak
of, with a table whose size fits an `int`, or the table starts past the end of the file. On a
platform that refuses nothing, it is so exactly then. -/
theorem truncated_kernel_iff (fw : Firmware) (platform : Platform) (machine middle : Machine)
    (opened : Opened) (address : Nat) (old : Memory)
    (opens : loaderKernelOpen fw platform machine = .ok opened middle)
    (accepted : elfHeaderCheck opened.header middle = .ok () middle)
    (pool : fw.allocatePool (middle.seek fw opened.header.ePhoff)
      (opened.header.ePhnum * opened.header.ePhentsize) = some (address, old)) :
    (LongEnough fw opened.header (tableBlock fw opened.header address old) ∨
        Rejected fw opened.header →
      StartedOnlyRead fw platform machine opened.header
        (tableBlock fw opened.header address old)) ∧
    (platform.Answers →
      (∀ reason stopped, loaderKernel fw platform machine = .error reason stopped →
        fw.Serves stopped (loadSegments opened.header (tableBlock fw opened.header address old))) →
      (StartedOnlyRead fw platform machine opened.header
          (tableBlock fw opened.header address old) ↔
        LongEnough fw opened.header (tableBlock fw opened.header address old) ∨
          Rejected fw opened.header)) := by
  have enough : LongEnough fw opened.header (tableBlock fw opened.header address old) ∨
        Rejected fw opened.header →
      StartedOnlyRead fw platform machine opened.header
        (tableBlock fw opened.header address old) := by
    rintro (long | rejected) runs
    · exact fullyRead_iff.mpr long
    · obtain ⟨stopped, stops⟩ := loaderKernel_rejected opens accepted pool rejected
      rw [stops] at runs
      rcases runs with ⟨jump, final, run⟩ | ⟨other, run⟩
      · cases run
      · cases run
  refine ⟨enough, fun answers serves => ⟨fun onlyRead => ?_, enough⟩⟩
  by_cases rejected : Rejected fw opened.header
  · exact .inr rejected
  · have runs := loaderKernel_started opens accepted pool answers serves rejected
    exact .inl (fullyRead_iff.mp (onlyRead runs))

theorem samplePlatform_answers : samplePlatform.Answers where
  close _ := rfl
  image _ := Option.some_ne_none _
  handles _ := ⟨0, rfl⟩
  gop _ := ⟨sampleGop, rfl, fun _ _ => Option.some_ne_none _⟩

/-- A kernel file that ends before the bytes of its segment. -/
def missingCodeFirmware : Firmware :=
  bumpFirmware (kernelFile 0x400000 [readOnlySegment] []) (by decide +kernel)

/-- The address of the table does not matter to its segments. -/
theorem loadSegments_tableBlock {segments : List Elf64Phdr} {old : Memory}
    (at_zero : loadSegments header (tableBlock fw header 0 old) = segments) (address : Nat) :
    loadSegments header (tableBlock fw header address old) = segments := at_zero

theorem truncated_kernel_sample :
    ∃ opened middle other otherMiddle address otherAddress,
      loaderKernelOpen sampleFirmware samplePlatform freshMachine = .ok opened middle ∧
      StartedOnlyRead sampleFirmware samplePlatform freshMachine opened.header
        (tableBlock sampleFirmware opened.header address fun _ => 0xAA) ∧
      loaderKernelOpen missingCodeFirmware samplePlatform freshMachine = .ok other otherMiddle ∧
      ¬ StartedOnlyRead missingCodeFirmware samplePlatform freshMachine other.header
        (tableBlock missingCodeFirmware other.header otherAddress fun _ => 0xAA) := by
  have runs : returned (loaderKernel sampleFirmware samplePlatform freshMachine) = true := by
    decide +kernel
  have otherRuns : returned (loaderKernel missingCodeFirmware samplePlatform freshMachine) = true := by
    decide +kernel
  obtain ⟨jump, final, run⟩ := exists_ok_of_returned runs
  obtain ⟨otherJump, otherFinal, otherRun⟩ := exists_ok_of_returned otherRuns
  obtain ⟨opened, middle, opens, -⟩ := bind_eq_ok.mp (loaderKernel_eq ▸ run)
  obtain ⟨other, otherMiddle, otherOpens, -⟩ := bind_eq_ok.mp (loaderKernel_eq ▸ otherRun)
  have header := (loaderKernelOpen_ok opens).2
  have otherHeader := (loaderKernelOpen_ok otherOpens).2
  have long : ∀ address, LongEnough sampleFirmware opened.header
      (tableBlock sampleFirmware opened.header address fun _ => 0xAA) := by
    have table : ∀ address, loadSegments opened.header (tableBlock sampleFirmware opened.header
        address fun _ => 0xAA) = sampleSegments := by
      rw [header]
      exact loadSegments_tableBlock (by decide +kernel)
    intro address
    refine ⟨?_, .inr (by decide +kernel), .inr ?_, ?_⟩
    · rw [header]
      decide +kernel
    · rw [header]
      decide +kernel
    rw [table]
    simp only [sampleSegments, List.forall_mem_cons, List.not_mem_nil, false_imp_iff, implies_true,
      and_true]
    exact ⟨.inr (by decide +kernel), .inr (by decide +kernel)⟩
  have short : ∀ address, ¬ LongEnough missingCodeFirmware other.header
      (tableBlock missingCodeFirmware other.header address fun _ => 0xAA) := by
    have table : ∀ address, loadSegments other.header (tableBlock missingCodeFirmware other.header
        address fun _ => 0xAA) = [readOnlySegment] := by
      rw [otherHeader]
      exact loadSegments_tableBlock (by decide +kernel)
    intro address covered
    have segments := covered.segments
    rw [table] at segments
    rcases segments _ List.mem_cons_self with none | inside
    · exact absurd none (by decide)
    · exact absurd inside (by decide +kernel)
  have present : ¬ Rejected missingCodeFirmware other.header := by
    rw [otherHeader]
    exact fun rejected => absurd rejected.1 (by decide +kernel)
  refine ⟨opened, middle, other, otherMiddle,
    firstFree (middle.seek sampleFirmware opened.header.ePhoff),
    firstFree (otherMiddle.seek missingCodeFirmware other.header.ePhoff), opens, ?_, otherOpens, ?_⟩
  · exact (truncated_kernel_iff sampleFirmware samplePlatform freshMachine middle opened _ _ opens
      (loaderKernel_passes opens run) rfl).1 (.inl (long _))
  · rw [(truncated_kernel_iff missingCodeFirmware samplePlatform freshMachine otherMiddle other _ _
      otherOpens (loaderKernel_passes otherOpens otherRun) rfl).2 samplePlatform_answers
        fun reason stopped stops => by
          rw [otherRun] at stops
          cases stops]
    exact not_or.mpr ⟨short _, present⟩

/-- The kernel is started, and what was in memory before is its code. -/
theorem missingCode_started :
    ∃ opened phdrs objects jump middle parsed loaded before final,
      EntryRun missingCodeFirmware samplePlatform [readOnlySegment] opened phdrs objects jump
        middle parsed loaded before final ∧
      elfHeaderCheck opened.header middle = .ok () middle ∧
      jump.entry = 0x400000 ∧ translate final.mem jump.pml4 0x400000 = some 0x101000 ∧
      final.mem 0x101000 = freshMachine.mem 0x101000 ∧
      ¬ FullyRead missingCodeFirmware opened.header phdrs := by
  have check : entersKernel missingCodeFirmware samplePlatform [readOnlySegment]
      (fun _ jump _ _ final =>
        jump.entry == 0x400000 && translate final.mem jump.pml4 0x400000 == some 0x101000 &&
          final.mem 0x101000 == freshMachine.mem 0x101000) = true := by
    decide +kernel
  obtain ⟨opened, phdrs, objects, jump, middle, parsed, loaded, before, final, entry, test⟩ :=
    entersKernel_ok check
  rw [Bool.and_eq_true, Bool.and_eq_true, beq_iff_eq, beq_iff_eq, beq_iff_eq] at test
  obtain ⟨⟨start, mapped⟩, code⟩ := test
  have passes := loaderKernel_passes entry.opens entry.run
  refine ⟨opened, phdrs, objects, jump, middle, parsed, loaded, before, final, entry, passes,
    start, mapped, code, fun read => ?_⟩
  have member : readOnlySegment ∈ loadSegments opened.header phdrs := by
    rw [entry.table]
    exact List.mem_cons_self
  have inside := (read.segments _ member).inside 0 (by decide)
  revert inside
  decide +kernel

end VineyardLoader
