import VineyardLoader.Loader.Image

/-!
# The walk over the program header table

`loader_parse_phdrs` computes the size of the table as a `size_t`, and the loop of
`loader_kernel_phdrs` computes the same product as an `int`. The step of the loop is the
entry size of the header, which nothing compares with the size of a program header.

The offsets that the loop visits are a list of their own (`tableVisits`), the loop is a turn
for each of them (`loaderKernelPhdrs_eq_visits`), and a turn sees only the fields that it reads
(`phdrTurn_congr`). So the walk is as it should be when the product is an `int`, the entries
hold a type each, and the loadable entries hold the other fields before the table ends
(`phdrs_walked_iff`).
-/

set_option autoImplicit false

namespace VineyardLoader

variable {fw : Firmware} {pml4 : Nat} {header : Elf64Ehdr} {phdrs : Block}

/-! ## Visits -/

/-- The bound of the loop: a product of two promoted 16-bit fields, computed as `int`, whose
overflow has no meaning. -/
def loopBound (header : Elf64Ehdr) : Option Nat :=
  if header.ePhnum * header.ePhentsize < 2 ^ 31 then some (header.ePhnum * header.ePhentsize)
  else none

/-- The offsets that the loop visits from an offset on; none if it does not end. -/
def phdrVisits (stride bound : Nat) : Nat → Nat → Option (List Nat)
  | 0, _ => none
  | fuel + 1, offset =>
      if offset < bound then (phdrVisits stride bound fuel (offset + stride)).map (offset :: ·)
      else some []

/-- The offsets that the loop visits in the table of a header. -/
def tableVisits (header : Elf64Ehdr) : Option (List Nat) :=
  (loopBound header).bind fun bound => phdrVisits header.ePhentsize bound (header.ePhnum + 1) 0

/-- A turn of the loop. -/
def phdrTurn (fw : Firmware) (pml4 : Nat) (phdrs : Block) (offset : Nat) : Boot Unit :=
  if (readPhdr phdrs.bytes offset).pType = ptLoad then
    loadSegment fw pml4 (readPhdr phdrs.bytes offset)
  else pure ()

/-- The loop is a turn for each offset that it visits. -/
theorem phdrLoop_visits {stride bound : Nat} {fuel : Nat} :
    ∀ {offset : Nat} {visits : List Nat}, phdrVisits stride bound fuel offset = some visits →
      phdrLoop fw pml4 phdrs stride bound fuel offset =
        visits.forM (phdrTurn fw pml4 phdrs) := by
  induction fuel with
  | zero =>
      intro offset visits ends
      cases ends
  | succ fuel ih =>
      intro offset visits ends
      rw [phdrVisits] at ends
      rw [phdrLoop]
      split at ends
      · rename_i inside
        obtain ⟨later, rest, rfl⟩ := Option.map_eq_some_iff.mp ends
        rw [if_pos inside, ih rest, List.forM, phdrTurn]
        by_cases loadable : (readPhdr phdrs.bytes offset).pType = ptLoad
        · simp only [if_pos loadable]
        · simp only [if_neg loadable, pure_bind]
      · rename_i outside
        cases ends
        rw [if_neg outside]
        rfl

/-- With a stride, the loop visits its multiples below the bound. -/
theorem phdrVisits_eq {stride count : Nat} (positive : 0 < stride) :
    ∀ remaining index, index + remaining = count →
      phdrVisits stride (count * stride) (remaining + 1) (index * stride) =
        some ((List.range' index remaining).map (· * stride)) := by
  intro remaining
  induction remaining with
  | zero =>
      intro index total
      obtain rfl : index = count := by omega
      rw [phdrVisits, if_neg (Nat.lt_irrefl _)]
      rfl
  | succ remaining ih =>
      intro index total
      have inside : index * stride < count * stride :=
        Nat.mul_lt_mul_of_pos_right (by omega) positive
      rw [phdrVisits, if_pos inside, ← Nat.succ_mul, ih (index + 1) (by omega), List.range'_succ]
      rfl

/-- A loop whose bound has a meaning ends. Without a stride it visits nothing. -/
theorem tableVisits_eq (small : header.ePhnum * header.ePhentsize < 2 ^ 31) :
    tableVisits header =
      some ((List.range (if header.ePhentsize = 0 then 0 else header.ePhnum)).map
        (· * header.ePhentsize)) := by
  rw [tableVisits, loopBound, if_pos small, Option.bind_some]
  by_cases zero : header.ePhentsize = 0
  · rw [zero, Nat.mul_zero, phdrVisits, if_neg (Nat.lt_irrefl _), if_pos rfl]
    rfl
  · have visits := @phdrVisits_eq _ header.ePhnum (Nat.pos_of_ne_zero zero) header.ePhnum 0
      (Nat.zero_add _)
    rw [Nat.zero_mul] at visits
    rw [visits, if_neg zero, List.range_eq_range']

theorem tableVisits_overflow (large : ¬ header.ePhnum * header.ePhentsize < 2 ^ 31) :
    tableVisits header = none := by
  rw [tableVisits, loopBound, if_neg large, Option.bind_none]

/-- The turns for the visits; none of them has a meaning when there is no bound. -/
def phdrTurns (fw : Firmware) (pml4 : Nat) (phdrs : Block) : Option (List Nat) → Boot Unit
  | none => throw .undefined
  | some visits => visits.forM (phdrTurn fw pml4 phdrs)

/-- **`loader_kernel_phdrs` is a turn for each visit.** -/
theorem loaderKernelPhdrs_eq_visits (fw : Firmware) (header : Elf64Ehdr) (pml4 : Nat) :
    loaderKernelPhdrs fw header pml4 = (do
      let phdrs ← loaderParsePhdrs fw header
      phdrTurns fw pml4 phdrs (tableVisits header)
      free fw phdrs) := by
  unfold loaderKernelPhdrs
  congr 1
  funext phdrs
  by_cases small : header.ePhnum * header.ePhentsize < 2 ^ 31
  · have visits := tableVisits_eq small
    have loop := visits
    rw [tableVisits, loopBound, if_pos small, Option.bind_some] at loop
    rw [visits, phdrTurns, ← phdrLoop_visits loop, if_neg (by omega)]
  · rw [tableVisits_overflow small]
    simp only [if_pos (Nat.le_of_not_lt small)]
    rfl

/-! ## Fields -/

/-- The fields that a turn reads, as ranges of the table: the type, and for a loadable entry the
others but the alignment. -/
def fieldReads (phdrs : Block) (offset : Nat) : List Extent :=
  ⟨offset, 4⟩ ::
    if (readPhdr phdrs.bytes offset).pType = ptLoad then
      [⟨offset + 4, 4⟩, ⟨offset + 8, 8⟩, ⟨offset + 16, 8⟩, ⟨offset + 24, 8⟩, ⟨offset + 32, 8⟩,
        ⟨offset + 40, 8⟩]
    else []

/-- A load of one segment sees its flags, place and sizes. -/
theorem loadSegment_congr {first second : Elf64Phdr} (flags : first.pFlags = second.pFlags)
    (offset : first.pOffset = second.pOffset) (vaddr : first.pVaddr = second.pVaddr)
    (filesz : first.pFilesz = second.pFilesz) (memsz : first.pMemsz = second.pMemsz) :
    loadSegment fw pml4 first = loadSegment fw pml4 second := by
  simp only [loadSegment, Elf64Phdr.pages, flags, offset, vaddr, filesz, memsz]

/-- **A turn sees only the fields that it reads.** -/
theorem phdrTurn_congr {first second : Block} {offset : Nat}
    (agree : ∀ field ∈ fieldReads first offset, ∀ index, index < field.size →
      first.bytes (field.start + index) = second.bytes (field.start + index)) :
    phdrTurn fw pml4 first offset = phdrTurn fw pml4 second offset := by
  have load : ∀ field ∈ fieldReads first offset,
      first.bytes.loadLE field.start field.size = second.bytes.loadLE field.start field.size :=
    fun field member => Memory.loadLE_congr (agree field member)
  have type : (readPhdr first.bytes offset).pType = (readPhdr second.bytes offset).pType :=
    load ⟨offset, 4⟩ List.mem_cons_self
  simp only [phdrTurn, ← type]
  split
  · rename_i loadable
    simp only [fieldReads, if_pos loadable, List.forall_mem_cons] at load
    obtain ⟨-, flags, place, vaddr, -, filesz, memsz, -⟩ := load
    exact loadSegment_congr flags place vaddr filesz memsz
  · rfl

/-- The fields of an entry lie in a block of the given size exactly when the last of them
does. -/
theorem fieldReads_inside {offset size : Nat} :
    (∀ field ∈ fieldReads phdrs offset, field.start + field.size ≤ size) ↔
      offset + 4 ≤ size ∧
        ((readPhdr phdrs.bytes offset).pType = ptLoad → offset + 48 ≤ size) := by
  unfold fieldReads
  split
  · rename_i loadable
    simp only [List.forall_mem_cons, loadable, forall_const, List.not_mem_nil, false_implies]
    constructor
    · rintro ⟨type, -, -, -, -, -, memsz, -⟩
      exact ⟨type, by omega⟩
    · rintro ⟨type, memsz⟩
      refine ⟨type, ?_, ?_, ?_, ?_, ?_, ?_, fun _ => trivial⟩ <;> omega
  · rename_i other
    simp [other]

/-! ## The table -/

/-- The loop is as long as the block of the table, visits its entries and reads inside it. -/
structure WalksTable (header : Elf64Ehdr) (phdrs : Block) : Prop where
  bound : loopBound header = some phdrs.size
  visits : tableVisits header = some ((List.range header.ePhnum).map (· * header.ePhentsize))
  reads : ∀ visits, tableVisits header = some visits → ∀ offset ∈ visits,
    ∀ field ∈ fieldReads phdrs offset, field.start + field.size ≤ phdrs.size

/-- The header and its entries for which the walk is as it should be: the product is an `int`,
an entry holds a type, and a loadable entry holds the other fields before the table ends. -/
structure TableFits (header : Elf64Ehdr) (phdrs : Block) : Prop where
  product : header.ePhnum * header.ePhentsize < 2 ^ 31
  types : header.ePhnum = 0 ∨ 4 ≤ header.ePhentsize
  loadable : ∀ entry, entry < header.ePhnum →
    (readPhdr phdrs.bytes (entry * header.ePhentsize)).pType = ptLoad →
      48 ≤ (header.ePhnum - entry) * header.ePhentsize

/-- The block of the table has the size that is computed as a `size_t`. -/
theorem loaderParsePhdrs_size {machine parsed : Machine}
    (parse : loaderParsePhdrs fw header machine = .ok phdrs parsed) :
    phdrs.size = header.ePhnum * header.ePhentsize := by
  rw [loaderParsePhdrs, bind_eq_ok] at parse
  obtain ⟨⟨⟩, moved, -, parse⟩ := parse
  obtain ⟨answer, asked, call, parse⟩ := bind_eq_ok.mp parse
  obtain ⟨block, given, allocated, parse⟩ := bind_eq_ok.mp parse
  obtain ⟨⟨status, data⟩, after, -, parse⟩ := bind_eq_ok.mp parse
  have size : block.size = header.ePhnum * header.ePhentsize := by
    rw [callAllocatePool, bind_of_ok (get_run _)] at call
    cases pool : fw.allocatePool moved (header.ePhnum * header.ePhentsize) with
    | none =>
        rw [pool] at call
        cases call
        cases allocated
    | some found =>
        rw [pool] at call
        cases call
        cases allocated
        rfl
  dsimp only at parse
  split at parse
  · cases parse
  · cases parse
    exact size

theorem mem_range_map_mul {count stride offset : Nat} :
    offset ∈ (List.range count).map (· * stride) ↔
      ∃ entry, entry < count ∧ entry * stride = offset := by
  simp

/-- **The walk over the program header table.** For a table that was parsed, the loop ends, its
bound is the size of the block, it visits the entries in order and reads inside the block
exactly when the product of the two counts of the header is an `int`, an entry holds a type,
and a loadable entry holds the other fields before the table ends. -/
theorem phdrs_walked_iff (fw : Firmware) (header : Elf64Ehdr) (phdrs : Block)
    (machine parsed : Machine) (parse : loaderParsePhdrs fw header machine = .ok phdrs parsed) :
    WalksTable header phdrs ↔ TableFits header phdrs := by
  have size := loaderParsePhdrs_size parse
  constructor
  · intro walks
    have product : header.ePhnum * header.ePhentsize < 2 ^ 31 := by
      by_contra large
      have bound := walks.bound
      rw [loopBound, if_neg large] at bound
      cases bound
    have fields : ∀ entry, entry < header.ePhnum →
        entry * header.ePhentsize + 4 ≤ phdrs.size ∧
          ((readPhdr phdrs.bytes (entry * header.ePhentsize)).pType = ptLoad →
            entry * header.ePhentsize + 48 ≤ phdrs.size) := by
      intro entry below
      exact fieldReads_inside.mp (walks.reads _ walks.visits _
        (mem_range_map_mul.mpr ⟨entry, below, rfl⟩))
    refine ⟨product, ?_, fun entry below loadable => ?_⟩
    · rcases Nat.eq_zero_or_pos header.ePhnum with zero | positive
      · exact .inl zero
      · have last := (fields (header.ePhnum - 1) (by omega)).1
        rw [size, Nat.sub_mul, Nat.one_mul] at last
        have := Nat.le_mul_of_pos_left header.ePhentsize positive
        exact .inr (by omega)
    · have inside := (fields entry below).2 loadable
      rw [size] at inside
      rw [Nat.sub_mul]
      omega
  · rintro ⟨product, types, loadable⟩
    have visits : tableVisits header =
        some ((List.range header.ePhnum).map (· * header.ePhentsize)) := by
      rw [tableVisits_eq product]
      split
      · rename_i zero
        obtain none : header.ePhnum = 0 := by omega
        rw [none]
      · rfl
    refine ⟨by rw [loopBound, if_pos product, size], visits, ?_⟩
    intro found walked offset member
    obtain rfl := Option.some.inj (visits.symm.trans walked)
    obtain ⟨entry, below, rfl⟩ := mem_range_map_mul.mp member
    have rest : header.ePhentsize ≤ (header.ePhnum - entry) * header.ePhentsize :=
      Nat.le_mul_of_pos_left _ (by omega)
    have inside : entry * header.ePhentsize < header.ePhnum * header.ePhentsize :=
      Nat.mul_lt_mul_of_pos_right below (by omega)
    rw [Nat.sub_mul] at rest
    refine fieldReads_inside.mpr ⟨by omega, fun load => ?_⟩
    have enough := loadable entry below load
    rw [Nat.sub_mul] at enough
    omega

/-- Entries as large as what the loop reads are enough for a table of any length. -/
theorem TableFits.of_entries (product : header.ePhnum * header.ePhentsize < 2 ^ 31)
    (wide : 48 ≤ header.ePhentsize) : TableFits header phdrs where
  product := product
  types := .inr (by omega)
  loadable entry below _ := wide.trans (Nat.le_mul_of_pos_left _ (by omega))

theorem phdrs_walked_sample :
    ∃ phdrs parsed, loaderParsePhdrs sampleFirmware (kernelHeader sampleFirmware.kernel)
        freshMachine = .ok phdrs parsed ∧
      WalksTable (kernelHeader sampleFirmware.kernel) phdrs := by
  have fits : ∀ phdrs, TableFits (kernelHeader sampleFirmware.kernel) phdrs :=
    fun _ => .of_entries (by decide +kernel) (by decide +kernel)
  obtain ⟨phdrs, parsed, parse⟩ := exists_ok_of_returned
    (show returned (loaderParsePhdrs sampleFirmware (kernelHeader sampleFirmware.kernel)
      freshMachine) = true by decide +kernel)
  exact ⟨phdrs, parsed, parse, (phdrs_walked_iff _ _ _ _ _ parse).mpr (fits phdrs)⟩

/-- A kernel file whose header counts 65535 entries of 65535 bytes. -/
def wideTableFile : List UInt8 :=
  (kernelFile 0x400000 [] []).take 54 ++ littleEndian 2 0xFFFF ++ littleEndian 2 0xFFFF ++
    littleEndian 6 0

/-- A firmware with this file as its kernel. -/
def wideTableFirmware : Firmware := bumpFirmware wideTableFile (by decide +kernel)

/-- The check of the header lets the file through, a block of the size of the table is
allocated, and the bound of the loop overflows. -/
theorem wideTable_not_walked :
    elfHeaderCheck (kernelHeader wideTableFile) freshMachine = .ok () freshMachine ∧
    ∃ phdrs parsed,
      loaderParsePhdrs wideTableFirmware (kernelHeader wideTableFile) freshMachine =
        .ok phdrs parsed ∧
      phdrs.size = 0xFFFF * 0xFFFF ∧ loopBound (kernelHeader wideTableFile) = none ∧
      ¬ WalksTable (kernelHeader wideTableFile) phdrs := by
  have product : (kernelHeader wideTableFile).ePhnum * (kernelHeader wideTableFile).ePhentsize =
      0xFFFF * 0xFFFF := by decide +kernel
  have bound : loopBound (kernelHeader wideTableFile) = none := by
    rw [loopBound, product]
    rfl
  obtain ⟨phdrs, parsed, parse⟩ := exists_ok_of_returned
    (show returned (loaderParsePhdrs wideTableFirmware (kernelHeader wideTableFile)
      freshMachine) = true by decide +kernel)
  refine ⟨rfl, phdrs, parsed, parse, (loaderParsePhdrs_size parse).trans product, bound,
    fun walks => ?_⟩
  have agrees := walks.bound
  rw [bound] at agrees
  cases agrees

end VineyardLoader
