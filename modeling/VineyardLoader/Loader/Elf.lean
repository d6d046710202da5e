import VineyardLoader.Loader.Paging

/-!
# ELF headers

The fields of the ELF header and of a program header that the loader reads, at their
offsets in the file, and the two functions of the loader that interpret them: the check of
the header and the translation of segment flags to page flags.
-/

set_option autoImplicit false

namespace VineyardLoader

/-! ## Headers -/

def ptLoad : Nat := 1

def ptX : Nat := 1
def ptW : Nat := 2

/-- `elf64_ehdr_t`, the fields the loader reads. -/
structure Elf64Ehdr where
  eIdent : Memory
  eType : Nat
  eMachine : Nat
  eEntry : Nat
  ePhoff : Nat
  ePhentsize : Nat
  ePhnum : Nat

/-- The ELF header in the first 64 bytes. -/
def readEhdr (bytes : Memory) : Elf64Ehdr where
  eIdent := bytes
  eType := bytes.loadLE 16 2
  eMachine := bytes.loadLE 18 2
  eEntry := bytes.loadLE 24 8
  ePhoff := bytes.loadLE 32 8
  ePhentsize := bytes.loadLE 54 2
  ePhnum := bytes.loadLE 56 2

/-- `elf64_phdr_t`. -/
structure Elf64Phdr where
  pType : Nat
  pFlags : Nat
  pOffset : Nat
  pVaddr : Nat
  pPaddr : Nat
  pFilesz : Nat
  pMemsz : Nat
  pAlign : Nat
deriving Repr, DecidableEq

/-- The program header at an offset of the table. -/
def readPhdr (bytes : Memory) (offset : Nat) : Elf64Phdr where
  pType := bytes.loadLE offset 4
  pFlags := bytes.loadLE (offset + 4) 4
  pOffset := bytes.loadLE (offset + 8) 8
  pVaddr := bytes.loadLE (offset + 16) 8
  pPaddr := bytes.loadLE (offset + 24) 8
  pFilesz := bytes.loadLE (offset + 32) 8
  pMemsz := bytes.loadLE (offset + 40) 8
  pAlign := bytes.loadLE (offset + 48) 8

/-- The address and sizes of a header fit in 64 bits. -/
structure Elf64Phdr.Fits (phdr : Elf64Phdr) : Prop where
  vaddr : phdr.pVaddr < 2 ^ 64
  filesz : phdr.pFilesz < 2 ^ 64
  memsz : phdr.pMemsz < 2 ^ 64

theorem readPhdr_fits (bytes : Memory) (offset : Nat) : (readPhdr bytes offset).Fits :=
  ⟨bytes.loadLE_lt 8 _, bytes.loadLE_lt 8 _, bytes.loadLE_lt 8 _⟩

/-! ## Interpretation -/

/-- `efi_elf_phdr_flags`. Both conditions join the flags to the tested bit, so neither
depends on the flags. -/
def efiElfPhdrFlags (f : Nat) : Nat :=
  let flags := pagePresent
  let flags := if f ||| ptX = 0 then flags ||| pageNx else flags
  if f ||| ptW ≠ 0 then flags ||| pageWrite else flags

/-- Every segment gets the same page flags. -/
theorem efiElfPhdrFlags_eq (f : Nat) : efiElfPhdrFlags f = pagePresent ||| pageWrite := by
  have nonzero : ∀ {bit}, bit ≠ 0 → f ||| bit ≠ 0 := by
    intro bit set zero
    exact set (Nat.or_eq_zero_iff.mp zero).2
  simp only [efiElfPhdrFlags, if_neg (nonzero (show ptX ≠ 0 by decide)),
    if_pos (nonzero (show ptW ≠ 0 by decide))]

/-- `elf_header_check`: each check panics with its message. -/
def elfHeaderCheck (header : Elf64Ehdr) : Boot Unit := do
  if header.eIdent 0 ≠ 0x7F ∧ header.eIdent 1 ≠ 0x45 ∧ header.eIdent 2 ≠ 0x4C ∧
      header.eIdent 3 ≠ 0x46 then
    throw (.panic "invalid ELF magic")
  if header.eIdent 4 ≠ 2 then throw (.panic "invalid ELF class")
  if header.eIdent 5 ≠ 1 then throw (.panic "invalid ELF endianness")
  if header.eIdent 6 ≠ 1 then throw (.panic "invalid ELF version")
  if header.eIdent 7 ≠ 0 then throw (.panic "invalid ELF OS ABI")
  if header.eType ≠ 2 then throw (.panic "invalid ELF type")
  if header.eMachine ≠ 62 then throw (.panic "invalid ELF machine type")

end VineyardLoader
