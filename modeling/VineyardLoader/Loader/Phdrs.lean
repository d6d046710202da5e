import VineyardLoader.Loader.AddressSpace
import VineyardLoader.Loader.Elf

/-!
# Loading the segments of the kernel

`loader_kernel_phdrs` reads the program header table, walks it with the stride of the
header, and loads each loadable segment: pages for it, its file bytes at the start of the
pages, a mapping of each page, and zeros after the file bytes.

The walk over the table is a loop over a pointer. It visits the entries at the multiples of
the stride (`phdrLoop_eq`), so the whole function is a loop over the loadable entries
(`loaderKernelPhdrs_ok`).
-/

set_option autoImplicit false

namespace VineyardLoader

variable (fw : Firmware)

/-- The bytes of a list as a source. -/
def bytesOf (data : List UInt8) : Nat → UInt8 := fun index => data.getD index 0

/-- `loader_parse_phdrs`: the program header table, in a pool block. -/
def loaderParsePhdrs (header : Elf64Ehdr) : Boot Block := do
  setPosition fw header.ePhoff
  let size := header.ePhnum * header.ePhentsize
  let phdrs ← orExit (← callAllocatePool fw size)
  let (status, data) ← readFile fw size
  if status.isError then throw .exit
  return { phdrs with bytes := phdrs.bytes.overwrite 0 data.length (bytesOf data) }

/-- The number of pages the loader takes for a segment. -/
def Elf64Phdr.pages (phdr : Elf64Phdr) : Nat := ((phdr.pMemsz + 0xfff) % 2 ^ 64) / 0x1000

/-- The body of the loop of `loader_kernel_phdrs` for a loadable segment. -/
def loadSegment (pml4 : Nat) (phdr : Elf64Phdr) : Boot Unit := do
  let pages := phdr.pages
  match ← callAllocatePages fw pages with
  | none => throw (.panic " error mapping kernel")
  | some physical =>
      let object : Extent := ⟨physical, pages * pageSize⟩
      setPosition fw phdr.pOffset
      let (_, data) ← readFile fw phdr.pFilesz
      writeObject object physical data.length (bytesOf data)
      modify fun machine =>
        { machine with reads := machine.reads ++ [⟨phdr.pOffset, phdr.pFilesz, physical⟩] }
      let flags := efiElfPhdrFlags phdr.pFlags
      repeatTimes (fun i =>
        loaderPagingMap fw pml4 (physical + (i <<< 12)) ((phdr.pVaddr + (i <<< 12)) % 2 ^ 64)
          flags) pages
      -- the difference of two unsigned sizes
      let zeros := (phdr.pMemsz + 2 ^ 64 - phdr.pFilesz) % 2 ^ 64
      if 0 < zeros then writeObject object (physical + phdr.pFilesz) zeros fun _ => 0

/-- The loop of `loader_kernel_phdrs` from an offset of the table on. -/
def phdrLoop (pml4 : Nat) (phdrs : Block) (stride bound : Nat) : Nat → Nat → Boot Unit
  | 0, _ => throw .diverged
  | fuel + 1, offset =>
      if offset < bound then do
        let phdr := readPhdr phdrs.bytes offset
        if phdr.pType = ptLoad then loadSegment fw pml4 phdr
        phdrLoop pml4 phdrs stride bound fuel (offset + stride)
      else return

/-- `loader_kernel_phdrs`. The bound of the loop is a product of two promoted 16-bit fields,
computed as `int`, whose overflow has no meaning. -/
def loaderKernelPhdrs (header : Elf64Ehdr) (pml4 : Nat) : Boot Unit := do
  let phdrs ← loaderParsePhdrs fw header
  let bound := header.ePhnum * header.ePhentsize
  if 2 ^ 31 ≤ bound then throw .undefined
  phdrLoop fw pml4 phdrs header.ePhentsize bound (header.ePhnum + 1) 0
  free fw phdrs

/-! ## The entries that the loop visits -/

/-- The entries of the table. A stride of zero makes the table empty. -/
def phdrEntries (header : Elf64Ehdr) (phdrs : Block) : List Elf64Phdr :=
  (List.range (if header.ePhentsize = 0 then 0 else header.ePhnum)).map fun index =>
    readPhdr phdrs.bytes (index * header.ePhentsize)

/-- The loadable segments, in the order of the table. -/
def loadSegments (header : Elf64Ehdr) (phdrs : Block) : List Elf64Phdr :=
  (phdrEntries header phdrs).filter fun phdr => phdr.pType = ptLoad

theorem loadSegments_fits {header : Elf64Ehdr} {phdrs : Block} {phdr : Elf64Phdr}
    (member : phdr ∈ loadSegments header phdrs) : phdr.Fits := by
  simp only [loadSegments, phdrEntries, List.mem_filter, List.mem_map] at member
  obtain ⟨⟨index, -, rfl⟩, -⟩ := member
  exact readPhdr_fits _ _

variable {fw}

theorem loaderParsePhdrs_keeps {π : Type} {part : Machine → π}
    (ignoresMap : ∀ machine map, part { machine with memoryMap := map } = part machine)
    (ignoresPosition : ∀ machine place, part { machine with position := place } = part machine)
    (header : Elf64Ehdr) : Keeps part (loaderParsePhdrs fw header) := by
  refine (setPosition_keeps ignoresPosition _).bind fun _ => ?_
  refine (callAllocatePool_keeps ignoresMap _).bind fun answer => ?_
  refine (orExit_keeps answer).bind fun phdrs => ?_
  refine (readFile_keeps ignoresPosition _).bind fun result => ?_
  exact Keeps.ite (fun _ => (Keeps.throw _).bind fun _ => Keeps.pure _) fun _ => Keeps.pure _

/-- The pointer loop visits the entries at the multiples of the stride. -/
theorem phdrLoop_eq (pml4 : Nat) (phdrs : Block) {stride count : Nat} (positive : 0 < stride) :
    ∀ remaining index, index + remaining = count →
      phdrLoop fw pml4 phdrs stride (count * stride) (remaining + 1) (index * stride) =
        (((List.range' index remaining).map fun i => readPhdr phdrs.bytes (i * stride)).filter
          fun phdr => phdr.pType = ptLoad).forM (loadSegment fw pml4) := by
  intro remaining
  induction remaining with
  | zero =>
      intro index total
      obtain rfl : index = count := by omega
      rw [phdrLoop, if_neg (Nat.lt_irrefl _)]
      rfl
  | succ remaining ih =>
      intro index total
      have inside : index * stride < count * stride :=
        Nat.mul_lt_mul_of_pos_right (by omega) positive
      rw [phdrLoop, if_pos inside, ← Nat.succ_mul, ih (index + 1) (by omega), List.range'_succ,
        List.map_cons, List.filter_cons]
      by_cases loadable : (readPhdr phdrs.bytes (index * stride)).pType = ptLoad
      · simp [loadable]
      · simp [loadable]

theorem phdrLoop_eq_forM (pml4 : Nat) (header : Elf64Ehdr) (phdrs : Block) :
    phdrLoop fw pml4 phdrs header.ePhentsize (header.ePhnum * header.ePhentsize)
        (header.ePhnum + 1) 0 =
      (loadSegments header phdrs).forM (loadSegment fw pml4) := by
  by_cases zero : header.ePhentsize = 0
  · rw [phdrLoop, zero, Nat.mul_zero, if_neg (Nat.lt_irrefl 0), loadSegments, phdrEntries,
      if_pos zero]
    rfl
  · have loop := @phdrLoop_eq fw pml4 phdrs _ _ (Nat.pos_of_ne_zero zero) header.ePhnum 0
      (Nat.zero_add _)
    rw [Nat.zero_mul] at loop
    rw [loop, loadSegments, phdrEntries, if_neg zero, List.range_eq_range']

/-- A run of `loader_kernel_phdrs` that returned: the table was parsed, every segment was
loaded, and the table was given back. -/
theorem loaderKernelPhdrs_ok {header : Elf64Ehdr} {pml4 : Nat} {machine final : Machine} :
    loaderKernelPhdrs fw header pml4 machine = .ok () final ↔
      ∃ phdrs parsed loaded, loaderParsePhdrs fw header machine = .ok phdrs parsed ∧
        header.ePhnum * header.ePhentsize < 2 ^ 31 ∧
        (loadSegments header phdrs).forM (loadSegment fw pml4) parsed = .ok () loaded ∧
        free fw phdrs loaded = .ok () final := by
  rw [loaderKernelPhdrs, bind_eq_ok]
  constructor
  · rintro ⟨phdrs, parsed, parse, rest⟩
    split at rest
    · obtain ⟨_, _, stops, _⟩ := bind_eq_ok.mp rest
      simp at stops
    · rename_i small
      obtain ⟨⟨⟩, loaded, loop, freed⟩ := bind_eq_ok.mp rest
      rw [phdrLoop_eq_forM] at loop
      exact ⟨phdrs, parsed, loaded, parse, by omega, loop, freed⟩
  · rintro ⟨phdrs, parsed, loaded, parse, small, loop, freed⟩
    refine ⟨phdrs, parsed, parse, ?_⟩
    rw [if_neg (by omega), bind_eq_ok]
    refine ⟨(), loaded, ?_, freed⟩
    rw [phdrLoop_eq_forM]
    exact loop

end VineyardLoader
