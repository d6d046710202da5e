import VineyardLoader.Foundation.Odometers
import VineyardLoader.Loader.Ranges

/-!
# The indices of an address

`mm_virtual_indices` cuts an address into one index for each level of the page tables. The
indices are the bits that the processor takes (`mmVirtualIndices_selects`), and together they
are one number, the page number of the address (`mmVirtualIndices_combined`). So canonical
addresses have the same indices exactly when they are in the same page, and from one page to
the next the indices go on like the wheels of an odometer (`mmVirtualIndices_next`).

`loader_paging_map_addr` takes the pages of a range in order, so each of its calls has the indices
after those of the call before (`rangeCalls_next`).
-/

set_option autoImplicit false

namespace VineyardLoader

/-! ## Indices as one number -/

/-- The four indices as one number of 36 bits, the top level first. -/
def VmIndices.combined (i : VmIndices) : Nat :=
  i.pml4i * 2 ^ 27 + i.pml3i * 2 ^ 18 + i.pml2i * 2 ^ 9 + i.pml1i

/-- The indices are those that the processor takes from the bits of an address. -/
structure VmIndices.Selects (i : VmIndices) (addr : BitVec 64) : Prop where
  pml4i : i.pml4i < 512 ∧ i.pml4i = (addr.extractLsb 47 39).toNat
  pml3i : i.pml3i < 512 ∧ i.pml3i = (addr.extractLsb 38 30).toNat
  pml2i : i.pml2i < 512 ∧ i.pml2i = (addr.extractLsb 29 21).toNat
  pml1i : i.pml1i < 512 ∧ i.pml1i = (addr.extractLsb 20 12).toNat
  combined : i.combined = (addr.extractLsb 47 12).toNat

/-- One step from indices to the next. A level steps when the levels below it are at their
last index, and the top level does not start again. -/
structure VmIndices.Next (i j : VmIndices) : Prop where
  combined : j.combined = i.combined + 1
  pml1i : j.pml1i = (i.pml1i + 1) % 512
  pml2i : j.pml2i = if i.pml1i = 511 then (i.pml2i + 1) % 512 else i.pml2i
  pml3i : j.pml3i =
    if i.pml1i = 511 ∧ i.pml2i = 511 then (i.pml3i + 1) % 512 else i.pml3i
  pml4i : j.pml4i =
    if i.pml1i = 511 ∧ i.pml2i = 511 ∧ i.pml3i = 511 then i.pml4i + 1 else i.pml4i

/-- Two addresses of one canonical half. -/
def SameHalf (v w : Nat) : Prop := Canonical v ∧ Canonical w ∧ (v < 2 ^ 47 ↔ w < 2 ^ 47)

instance (v w : Nat) : Decidable (SameHalf v w) := inferInstanceAs (Decidable (_ ∧ _ ∧ _))

/-! ## Wheels -/

/-- The indices are the wheels that show the page number. -/
theorem mmVirtualIndices_eq_wheels {addr : Nat} (bounded : addr < 2 ^ 64) :
    mmVirtualIndices addr =
      { pml4i := wheel 512 (pageOf addr) 3, pml3i := wheel 512 (pageOf addr) 2,
        pml2i := wheel 512 (pageOf addr) 1, pml1i := wheel 512 (pageOf addr) 0 } := by
  obtain ⟨fourth, third, second, first⟩ := slices_eq addr
  have top : wheel 512 (pageOf addr) 3 = pageOf addr / 2 ^ 27 := wheel_top (pageOf_lt addr)
  have lowest : wheel 512 (pageOf addr) 0 = pageOf addr % 512 := by
    rw [wheel, Nat.pow_zero, Nat.div_one]
  rw [mmVirtualIndices_eq bounded, fourth, third, second, first, top, lowest]
  rfl

/-- **The combined index is the page number.** -/
theorem mmVirtualIndices_combined {addr : Nat} (bounded : addr < 2 ^ 64) :
    (mmVirtualIndices addr).combined = pageOf addr := by
  rw [mmVirtualIndices_eq_wheels bounded]
  calc
    _ = ∑ place ∈ Finset.range 4, wheel 512 (pageOf addr) place * 512 ^ place := by
      simp only [VmIndices.combined, Finset.sum_range_succ, Finset.sum_range_zero]
      ring
    _ = pageOf addr % 512 ^ 4 := sum_wheels 512 (pageOf addr) 4
    _ = pageOf addr := Nat.mod_eq_of_lt (pageOf_lt addr)

/-! ## Bits -/

theorem extractLsb_toNat (addr : BitVec 64) (low : Nat) :
    (addr.extractLsb (low + 8) low).toNat = slice addr.toNat low := by
  rw [BitVec.extractLsb_toNat, Nat.shiftRight_eq_div_pow, slice, Nat.add_sub_cancel_left]

/-- **The indices are the bits that the processor takes.** -/
theorem mmVirtualIndices_selects (addr : BitVec 64) :
    (mmVirtualIndices addr.toNat).Selects addr := by
  have bound : ∀ low, slice addr.toNat low < 512 := fun low => Nat.mod_lt _ (by decide)
  have combined := mmVirtualIndices_combined addr.isLt
  rw [pageOf, pageSize, ← Nat.shiftRight_eq_div_pow addr.toNat 12] at combined
  rw [mmVirtualIndices_eq addr.isLt] at combined ⊢
  exact
    { pml4i := ⟨bound 39, (extractLsb_toNat addr 39).symm⟩
      pml3i := ⟨bound 30, (extractLsb_toNat addr 30).symm⟩
      pml2i := ⟨bound 21, (extractLsb_toNat addr 21).symm⟩
      pml1i := ⟨bound 12, (extractLsb_toNat addr 12).symm⟩
      combined := combined.trans (BitVec.extractLsb_toNat 47 12 addr).symm }

/-- **Canonical addresses have the same indices exactly when they are in the same page.** -/
theorem mmVirtualIndices_eq_iff {v w : Nat} (canonical : Canonical v) (other : Canonical w) :
    mmVirtualIndices v = mmVirtualIndices w ↔ v / pageSize = w / pageSize := by
  have bounded := canonical.lt
  have otherBounded := other.lt
  rw [← pageOf_eq_iff canonical other]
  constructor
  · intro same
    rw [← mmVirtualIndices_combined bounded, ← mmVirtualIndices_combined otherBounded, same]
  · intro same
    rw [mmVirtualIndices_eq_wheels bounded, mmVirtualIndices_eq_wheels otherBounded, same]

/-! ## Steps -/

/-- In one half the page numbers of consecutive pages follow each other. -/
theorem SameHalf.pageOf_succ {v w : Nat} (half : SameHalf v w)
    (consecutive : w / pageSize = v / pageSize + 1) : pageOf w = pageOf v + 1 := by
  obtain ⟨canonical, other, side⟩ := half
  simp only [Canonical] at canonical other
  simp only [pageSize] at consecutive
  simp only [pageOf, pageSize]
  omega

/-- **Consecutive pages of one half have consecutive indices.** -/
theorem mmVirtualIndices_next {v w : Nat} (half : SameHalf v w)
    (consecutive : w / pageSize = v / pageSize + 1) :
    (mmVirtualIndices v).Next (mmVirtualIndices w) := by
  have bounded := half.1.lt
  have otherBounded := half.2.1.lt
  have step := half.pageOf_succ consecutive
  have fits : pageOf v + 1 < 512 ^ 4 := step ▸ pageOf_lt w
  have positive : 0 < 512 := by decide
  have combined : (mmVirtualIndices w).combined = (mmVirtualIndices v).combined + 1 := by
    rw [mmVirtualIndices_combined bounded, mmVirtualIndices_combined otherBounded, step]
  refine ⟨combined, ?_, ?_, ?_, ?_⟩
  all_goals
    rw [mmVirtualIndices_eq_wheels bounded, mmVirtualIndices_eq_wheels otherBounded, step]
    dsimp only
  · rw [wheel_succ positive, if_pos carries_zero]
  · simp only [wheel_succ positive, carries_succ, carries_zero, true_and]
  · simp only [wheel_succ positive, carries_succ, carries_zero, true_and]
  · simp only [wheel_succ_top positive fits, carries_succ, carries_zero, true_and, and_assoc]

/-- **`loader_paging_map_addr` goes from each leaf entry to the next.** -/
theorem rangeCalls_next {start length : Nat} (low : start + length < lowerEnd) (flags : Nat) :
    ((rangeCalls start length flags).map fun call => mmVirtualIndices call.virtual).IsChain
      VmIndices.Next := by
  have physical : start + length < physicalEnd := low.trans (by decide)
  rw [rangeCalls_eq_map physical, List.isChain_map, List.isChain_map, List.isChain_range]
  intro i bound
  simp only [lowerEnd] at low
  apply mmVirtualIndices_next
  · simp only [SameHalf, Canonical, pageCall]
    omega
  · simp only [pageCall, pageSize]
    omega

/-! ## Decomposition -/

/-- **The indices of an address tell its page.** They are the bits that the processor takes,
canonical addresses have the same indices exactly when they are in the same page, and consecutive
pages of one half have consecutive indices. -/
theorem virtualIndices_decompose (addr : BitVec 64) :
    (mmVirtualIndices addr.toNat).Selects addr ∧
      (∀ other : BitVec 64, Canonical addr.toNat → Canonical other.toNat →
        (mmVirtualIndices addr.toNat = mmVirtualIndices other.toNat ↔
          addr.toNat / pageSize = other.toNat / pageSize)) ∧
      ∀ next : BitVec 64, SameHalf addr.toNat next.toNat →
        next.toNat / pageSize = addr.toNat / pageSize + 1 →
          (mmVirtualIndices addr.toNat).Next (mmVirtualIndices next.toNat) :=
  ⟨mmVirtualIndices_selects addr, fun _ => mmVirtualIndices_eq_iff, fun _ => mmVirtualIndices_next⟩

/-- The last page of a table of the second level, in the upper half. -/
theorem virtualIndices_decompose_sample :
    (mmVirtualIndices 0xFFFF80003FFFF008).Next (mmVirtualIndices 0xFFFF800040000010) ∧
      mmVirtualIndices 0xFFFF80003FFFF008 = ⟨256, 0, 511, 511⟩ ∧
      mmVirtualIndices 0xFFFF800040000010 = ⟨256, 1, 0, 0⟩ :=
  ⟨(virtualIndices_decompose 0xFFFF80003FFFF008#64).2.2 0xFFFF800040000010#64 (by decide)
    (by decide), by decide, by decide⟩

end VineyardLoader
