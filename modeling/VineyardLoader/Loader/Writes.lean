import VineyardLoader.Loader.Image

/-!
# What a segment writes

The two sizes of a program header are 64-bit numbers that nothing compares. The pages of a
segment are counted from its memory size, the bytes that `Read` may put into them from its file
size, and the zeros after them are the difference of the two, which is unsigned.

With the pages granted, every byte written lies in them exactly when the bytes read and the
zeros have room there (`writes_inside_iff`), and they have room exactly when the sizes are in
order and the number of pages did not wrap, but for segments that write nothing (`room_iff`). So
a turn of the loop stays in its pages, without a wrap, exactly for sizes in order that end a
page before the largest 64-bit number (`segment_stays_iff`).
-/

set_option autoImplicit false

namespace VineyardLoader

variable {fw : Firmware} {phdr : Elf64Phdr}

/-- The addresses that a turn writes to besides the tables: those of the bytes that `Read` gives,
and those of the zeros of `memset`. A pointer wraps at 64 bits. -/
inductive Elf64Phdr.Writes (fw : Firmware) (phdr : Elf64Phdr) (base : Nat) : Nat → Prop
  | byte {k : Nat} (below : k < (fw.fileBytes phdr.pOffset phdr.pFilesz).length) :
      Writes fw phdr base ((base + k) % 2 ^ 64)
  | zero {k : Nat} (below : k < phdr.zeros) :
      Writes fw phdr base ((base + phdr.pFilesz + k) % 2 ^ 64)

/-- The writes stay in the pages exactly when what is written has room in them. -/
theorem writes_inside_iff (fits : phdr.Fits) {machine : Machine} {base : Nat}
    (granted : fw.allocatePages machine phdr.pages = some base) :
    (∀ address, phdr.Writes fw base address →
      (LoadedSegment.extent ⟨phdr, base⟩).Contains address) ↔ phdr.Room fw := by
  have below := fw.allocatePages_below _ _ _ granted
  have filesz := fits.filesz
  have enough : physicalEnd < 2 ^ 64 := by decide
  generalize physicalEnd = memoryEnd at below enough
  generalize size : phdr.pages * pageSize = pages at below
  have contains : ∀ address, (LoadedSegment.extent ⟨phdr, base⟩).Contains address ↔
      base ≤ address ∧ address < base + pages := by
    intro address
    rw [LoadedSegment.extent, size]
    rfl
  constructor
  · intro inside
    refine ⟨?_, ?_⟩
    · rw [size]
      by_contra long
      have last := (contains _).mp (inside _ (.byte (Nat.lt_of_not_le long)))
      rw [Nat.mod_eq_of_lt (by omega)] at last
      exact Nat.lt_irrefl _ last.2
    · rw [size]
      by_contra long
      rw [not_or] at long
      obtain ⟨some, long⟩ := long
      rcases Nat.lt_or_ge phdr.pFilesz pages with short | past
      · -- the first address after the pages is set to zero
        have last := (contains _).mp
          (inside _ (.zero (k := pages - phdr.pFilesz) (by omega)))
        rw [show base + phdr.pFilesz + (pages - phdr.pFilesz) = base + pages by omega,
          Nat.mod_eq_of_lt (by omega)] at last
        exact Nat.lt_irrefl _ last.2
      · -- the zeros start after the pages, or before them if the pointer wraps
        have first := (contains _).mp (inside _ (.zero (k := 0) (Nat.pos_of_ne_zero some)))
        rw [Nat.add_zero] at first
        omega
  · rintro ⟨bytes, zeros⟩ address write
    rw [size] at bytes zeros
    rw [contains]
    cases write with
    | byte inRead =>
        rw [Nat.mod_eq_of_lt (by omega)]
        omega
    | zero inZeros =>
        rcases zeros with none | zeros
        · omega
        · rw [Nat.mod_eq_of_lt (by omega)]
          omega

/-- There is room exactly for sizes in order whose number of pages did not wrap, and for a
segment that ends in the last page and of which nothing is read. -/
theorem room_iff (fits : phdr.Fits) :
    phdr.Room fw ↔ phdr.pFilesz ≤ phdr.pMemsz ∧
      (phdr.pMemsz + 0xfff < 2 ^ 64 ∨
        phdr.pMemsz = phdr.pFilesz ∧ (fw.fileBytes phdr.pOffset phdr.pFilesz).length = 0) := by
  have read := fw.fileBytes_length phdr.pOffset phdr.pFilesz
  have filesz := fits.filesz
  have memsz := fits.memsz
  constructor
  · rintro ⟨bytes, zeros⟩
    simp only [Elf64Phdr.pages, Elf64Phdr.zeros, pageSize] at bytes zeros
    have ordered : phdr.pFilesz ≤ phdr.pMemsz := by omega
    refine ⟨ordered, ?_⟩
    by_contra wraps
    omega
  · rintro ⟨ordered, small | ⟨same, none⟩⟩
    · constructor
      · simp only [Elf64Phdr.pages, pageSize]
        omega
      · simp only [Elf64Phdr.pages, Elf64Phdr.zeros, pageSize]
        omega
    · constructor
      · omega
      · left
        simp only [Elf64Phdr.zeros]
        omega

/-- A turn of the loop stays in the pages that it was granted, and neither of its sizes wraps. A
turn that stops does so only because pages were refused. -/
structure StaysInPages (fw : Firmware) (phdr : Elf64Phdr) : Prop where
  inside : ∀ machine base, fw.allocatePages machine phdr.pages = some base →
    ∀ address, phdr.Writes fw base address →
      (LoadedSegment.extent ⟨phdr, base⟩).Contains address
  stops : ∀ pml4 machine reason final, loadSegment fw pml4 phdr machine = .error reason final →
    fw.allocatePages final phdr.pages = none ∨ fw.allocatePages final 1 = none
  sum : (phdr.pMemsz + 0xfff) % 2 ^ 64 = phdr.pMemsz + 0xfff
  difference : (phdr.zeros : Int) = phdr.pMemsz - phdr.pFilesz

/-- **The writes of a segment.** A turn of the loop writes only to its own pages and neither
the rounding up nor the difference of its sizes wraps exactly when the file size is at most the
memory size, and the memory size is not within a page of the largest 64-bit number. -/
theorem segment_stays_iff (fw : Firmware) (phdr : Elf64Phdr) (fits : phdr.Fits) :
    StaysInPages fw phdr ↔ phdr.pFilesz ≤ phdr.pMemsz ∧ phdr.pMemsz + 0xfff < 2 ^ 64 := by
  have filesz := fits.filesz
  have memsz := fits.memsz
  constructor
  · intro stays
    have sum := stays.sum
    have difference := stays.difference
    simp only [Elf64Phdr.zeros] at difference
    omega
  · rintro ⟨ordered, small⟩
    have room : phdr.Room fw := (room_iff fits).mpr ⟨ordered, .inl small⟩
    refine ⟨fun machine base granted => (writes_inside_iff fits granted).mpr room,
      fun pml4 machine reason final => loadSegment_error room, Nat.mod_eq_of_lt small, ?_⟩
    simp only [Elf64Phdr.zeros]
    omega

theorem segment_stays_sample : StaysInPages sampleFirmware readOnlySegment :=
  (segment_stays_iff sampleFirmware readOnlySegment ⟨by decide, by decide, by decide⟩).mpr
    ⟨by decide, by decide⟩

/-- A segment of two file bytes and one byte of memory. -/
def overlongSegment : Elf64Phdr := ⟨ptLoad, 4, 0, 0x400000, 0, 2, 1, 0x1000⟩

/-- The difference of the sizes wraps, and zeros are written after the page. -/
theorem overlongSegment_leaves :
    overlongSegment.zeros = 2 ^ 64 - 1 ∧
    sampleFirmware.allocatePages freshMachine overlongSegment.pages = some 0x100000 ∧
    overlongSegment.Writes sampleFirmware 0x100000 0x101000 ∧
    ¬ (LoadedSegment.extent ⟨overlongSegment, 0x100000⟩).Contains 0x101000 ∧
    ¬ StaysInPages sampleFirmware overlongSegment := by
  have granted : sampleFirmware.allocatePages freshMachine overlongSegment.pages =
      some 0x100000 := by decide +kernel
  have write : overlongSegment.Writes sampleFirmware 0x100000 0x101000 :=
    .zero (k := 0xffe) (by decide)
  have outside : ¬ (LoadedSegment.extent ⟨overlongSegment, 0x100000⟩).Contains 0x101000 := by
    decide
  exact ⟨rfl, granted, write, outside,
    fun stays => outside (stays.inside freshMachine 0x100000 granted 0x101000 write)⟩

end VineyardLoader
