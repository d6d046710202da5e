import VineyardLoader.Foundation.Bits
import VineyardLoader.Uefi.Machine

/-!
# Building and walking the page tables

`loader_paging_map` descends three levels of tables, makes the tables that are missing, and
writes the leaf entry. `walk` is the processor's side: it slices the address, follows the
four levels and combines the permissions on the way.

The loader computes the indices of an upper-half address by rebasing it, and the processor
by slicing. The two agree on every 64-bit address (`mmVirtualIndices_eq`).
-/

set_option autoImplicit false

namespace VineyardLoader

/-! ## Entries -/

def pagePresent : Nat := 0x01
def pageWrite : Nat := 0x02
def pageNx : Nat := 0x8000000000000000

/-- The bits of an entry that hold the frame. -/
def frameMask : Nat := 0x000FFFFFFFFFF000

/-- The bits of an entry that do not. -/
def flagMask : Nat := 0xFFF0000000000FFF

/-- The slot of the top level that points to the top level itself. -/
def selfMapSlot : Nat := 510

def frameOf (entry : Nat) : Nat := entry &&& frameMask

/-- Entry `index` of a table. -/
def entryAt (mem : Memory) (table index : Nat) : Nat := mem.load64 (table + 8 * index)

/-- Entry `index` of a table, if it is present. -/
def presentEntry (mem : Memory) (table index : Nat) : Option Nat :=
  if entryAt mem table index &&& pagePresent = 0 then none else some (entryAt mem table index)

/-! ## The loader's side -/

/-- The indices of `struct vm_indices`. -/
structure VmIndices where
  pml4i : Nat
  pml3i : Nat
  pml2i : Nat
  pml1i : Nat
deriving Repr, DecidableEq

/-- `mm_virtual_indices`. -/
def mmVirtualIndices (addr : Nat) : VmIndices :=
  if 0xFFFF800000000000 ≤ addr then
    let addr := addr - 0xFFFF800000000000
    { pml4i := 256 + ((addr >>> 39) &&& 0x1FF)
      pml3i := (addr >>> 30) &&& 0x1FF
      pml2i := (addr >>> 21) &&& 0x1FF
      pml1i := (addr >>> 12) &&& 0x1FF }
  else
    { pml4i := (addr >>> 39) &&& 0x1FF
      pml3i := (addr >>> 30) &&& 0x1FF
      pml2i := (addr >>> 21) &&& 0x1FF
      pml1i := (addr >>> 12) &&& 0x1FF }

variable (fw : Firmware)

/-- `loader_paging_setup`: an empty top level whose slot 510 points to itself. -/
def loaderPagingSetup : Boot Nat := do
  let pml4 ← uefiAllocPages fw 1
  writeWord (pml4 + 8 * selfMapSlot) (pml4 ||| pageWrite ||| pagePresent)
  return pml4

/-- The block that `loader_paging_map` repeats at each of the three upper levels: the table
an entry points to, made if the entry is not present. -/
def nextTable (table index : Nat) : Boot Nat := do
  let entry ← readWord (table + 8 * index)
  if entry &&& pagePresent = 0 then
    let next ← uefiAllocPages fw 1
    writeWord (table + 8 * index) (next ||| pagePresent ||| pageWrite)
    return next
  else
    return entry &&& 0x000FFFFFFFFFF000

/-- `loader_paging_map`. -/
def loaderPagingMap (pml4 physical virtual flags : Nat) : Boot Unit := do
  let i := mmVirtualIndices virtual
  let pml3 ← nextTable fw pml4 i.pml4i
  let pml2 ← nextTable fw pml3 i.pml3i
  let pml1 ← nextTable fw pml2 i.pml2i
  writeWord (pml1 + 8 * i.pml1i) (physical ||| flags)

/-- `loader_paging_map_addr`: the pages of a range, each mapped to itself. -/
def loaderPagingMapAddr (pml4 start length flags : Nat) : Boot Unit := do
  let startPage := start >>> 12
  let endPage := ((start + length) % 2 ^ 64) >>> 12
  let pages := (1 + (endPage + 2 ^ 64 - startPage)) % 2 ^ 64
  let pageAddr := start &&& 0x000FFFFFFFFFF000
  repeatTimes (fun i =>
    loaderPagingMap fw pml4 ((pageAddr + (i <<< 12)) % 2 ^ 64) ((pageAddr + (i <<< 12)) % 2 ^ 64)
      flags) pages

/-! ## The processor's side -/

/-- What a walk finds: the frame and the flags of the leaf, and the permissions that the
four levels grant together. -/
structure Translation where
  frame : Nat
  flags : Nat
  writable : Bool
  noExecute : Bool
deriving Repr, DecidableEq

/-- The nine bits of an address above `low`. -/
def slice (v low : Nat) : Nat := v / 2 ^ low % 512

/-- A write needs the bit at every level, and one level suffices to forbid execution. -/
def combine (levels : List Nat) (leaf : Nat) : Translation where
  frame := frameOf leaf
  flags := leaf &&& flagMask
  writable := (levels ++ [leaf]).all fun entry => entry &&& pageWrite != 0
  noExecute := (levels ++ [leaf]).any fun entry => entry &&& pageNx != 0

/-- The four-level walk of the processor. -/
def walk (mem : Memory) (pml4 v : Nat) : Option Translation := do
  let e4 ← presentEntry mem pml4 (slice v 39)
  let e3 ← presentEntry mem (frameOf e4) (slice v 30)
  let e2 ← presentEntry mem (frameOf e3) (slice v 21)
  let e1 ← presentEntry mem (frameOf e2) (slice v 12)
  return combine [e4, e3, e2] e1

/-- The physical address an address translates to. -/
def translate (mem : Memory) (pml4 v : Nat) : Option Nat :=
  (walk mem pml4 v).map fun translation => translation.frame + v % pageSize

/-- A canonical address: bits 63 to 47 are equal. -/
def Canonical (v : Nat) : Prop := v < 2 ^ 47 ∨ (2 ^ 64 - 2 ^ 47 ≤ v ∧ v < 2 ^ 64)

instance (v : Nat) : Decidable (Canonical v) := inferInstanceAs (Decidable (_ ∨ _))

/-- The number of the page of an address, as far as the tables see it. -/
def pageOf (v : Nat) : Nat := v / pageSize % 2 ^ 36

/-! ## Indices -/

/-- **Rebasing an upper-half address agrees with slicing it.** -/
theorem mmVirtualIndices_eq {addr : Nat} (bounded : addr < 2 ^ 64) :
    mmVirtualIndices addr =
      { pml4i := slice addr 39, pml3i := slice addr 30, pml2i := slice addr 21,
        pml1i := slice addr 12 } := by
  have low : ∀ word shift, (word >>> shift) &&& 0x1FF = word / 2 ^ shift % 512 :=
    fun word shift => shiftRight_and_lowMask word shift 9
  unfold mmVirtualIndices slice
  simp only [low]
  split
  · rename_i upper
    simp only [VmIndices.mk.injEq]
    omega
  · rfl

/-- The four slices of an address are the digits of its page number. -/
theorem slices_eq (v : Nat) :
    slice v 39 = pageOf v / 2 ^ 27 ∧ slice v 30 = pageOf v / 2 ^ 18 % 512 ∧
      slice v 21 = pageOf v / 2 ^ 9 % 512 ∧ slice v 12 = pageOf v % 512 := by
  simp only [slice, pageOf, pageSize]
  omega

theorem Canonical.lt {v : Nat} (canonical : Canonical v) : v < 2 ^ 64 := by
  simp only [Canonical] at canonical
  omega

/-- Canonical addresses are in one page exactly when the tables see one page. -/
theorem pageOf_eq_iff {v w : Nat} (canonical : Canonical v) (other : Canonical w) :
    pageOf v = pageOf w ↔ v / pageSize = w / pageSize := by
  simp only [pageOf, pageSize]
  simp only [Canonical] at canonical other
  omega

/-! ## Reading an entry apart -/

/-- The flags that a mapping may carry: a subset of the three flags, with the present flag. -/
def ValidFlags (flags : Nat) : Prop :=
  flags &&& (pagePresent ||| pageWrite ||| pageNx) = flags ∧ flags &&& pagePresent ≠ 0

instance (flags : Nat) : Decidable (ValidFlags flags) := inferInstanceAs (Decidable (_ ∧ _))

/-- A page of physical memory. -/
def IsPage (address : Nat) : Prop := address % pageSize = 0 ∧ address + pageSize ≤ physicalEnd

instance (address : Nat) : Decidable (IsPage address) := inferInstanceAs (Decidable (_ ∧ _))

theorem IsPage.and_frameMask {page : Nat} (isPage : IsPage page) : page &&& frameMask = page := by
  have bounded : page < 2 ^ (12 + 40) := by
    have end_ := isPage.2
    simp only [pageSize, physicalEnd] at end_
    omega
  exact and_fieldMask_of_aligned isPage.1 bounded

theorem IsPage.lt {page : Nat} (isPage : IsPage page) : page < 2 ^ 64 := by
  have end_ := isPage.2
  simp only [pageSize, physicalEnd] at end_
  omega

namespace ValidFlags

variable {flags : Nat} (valid : ValidFlags flags)
include valid

theorem lt : flags < 2 ^ 64 := by
  have bound : flags ≤ pagePresent ||| pageWrite ||| pageNx := by
    rw [← valid.1]
    exact Nat.and_le_right
  exact lt_of_le_of_lt bound (by decide)

theorem and_flagMask : flags &&& flagMask = flags := by
  rw [← valid.1, Nat.and_assoc]
  rfl

theorem and_frameMask : flags &&& frameMask = 0 :=
  and_eq_zero_of_masks valid.1 (by decide)

end ValidFlags

section Entry

variable {page flags : Nat} (isPage : IsPage page) (valid : ValidFlags flags)
include isPage valid

theorem entry_lt : page ||| flags < 2 ^ 64 := Nat.or_lt_two_pow isPage.lt valid.lt

theorem frameOf_entry : frameOf (page ||| flags) = page :=
  or_and_left isPage.and_frameMask valid.and_frameMask

omit valid in
/-- A flag of an entry is a flag of its flags. -/
theorem entry_and {mask : Nat} (apart : frameMask &&& mask = 0) :
    (page ||| flags) &&& mask = flags &&& mask := by
  rw [Nat.and_or_distrib_right, and_eq_zero_of_masks isPage.and_frameMask apart, Nat.zero_or]

theorem entry_and_flagMask : (page ||| flags) &&& flagMask = flags := by
  rw [entry_and isPage (by decide), valid.and_flagMask]

theorem entry_present : (page ||| flags) &&& pagePresent ≠ 0 := by
  rw [entry_and isPage (by decide)]
  exact valid.2

end Entry

/-- The flags of every entry above the leaves. -/
def linkFlags : Nat := pagePresent ||| pageWrite

theorem linkFlags_valid : ValidFlags linkFlags := by decide

end VineyardLoader
