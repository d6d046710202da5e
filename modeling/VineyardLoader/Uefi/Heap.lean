import VineyardLoader.Uefi.Machine

/-!
# Pool memory

The programs that put together device paths take pool memory and write into it. Memory is
identity-mapped and the objects in use are ranges of it below its end.

The firmware decides where `AllocatePool` puts a block, and it may refuse. What the
specification promises is part of its type: the block is not at the null pointer, below the end
of memory, and apart from every object in use. A write outside the object it goes to has no
meaning, and neither has a copy between ranges that overlap: the program stops there with
`Halt.undefined`.
-/

set_option autoImplicit false

namespace VineyardLoader

/-- Memory and the objects in use. -/
structure Heap where
  mem : Memory
  inUse : List Extent
  below : ∀ extent ∈ inUse, extent.start + extent.size ≤ physicalEnd

/-- The firmware's answers to `AllocatePool`. -/
structure PoolFirmware where
  /-- The address of a block, or a refusal. -/
  allocate : Heap → Nat → Option Nat
  allocate_nonnull : ∀ heap size base, allocate heap size = some base → base ≠ 0
  allocate_below : ∀ heap size base, allocate heap size = some base → base + size ≤ physicalEnd
  allocate_fresh : ∀ heap size base, allocate heap size = some base →
    ∀ extent ∈ heap.inUse, Extent.Disjoint ⟨base, size⟩ extent

/-- Programs on pool memory. -/
abbrev Pooled := EStateM Halt Heap

namespace Heap

variable (heap : Heap)

/-- The heap with one more block. -/
def withBlock (base size : Nat) (below : base + size ≤ physicalEnd) : Heap where
  mem := heap.mem
  inUse := ⟨base, size⟩ :: heap.inUse
  below := List.forall_mem_cons.mpr ⟨below, heap.below⟩

/-- The heap with a range of its memory overwritten. -/
def overwrite (start size : Nat) (source : Nat → UInt8) : Heap :=
  { heap with mem := heap.mem.overwrite start size source }

@[simp] theorem withBlock_mem (base size : Nat) (below : base + size ≤ physicalEnd) :
    (heap.withBlock base size below).mem = heap.mem := rfl

@[simp] theorem withBlock_inUse (base size : Nat) (below : base + size ≤ physicalEnd) :
    (heap.withBlock base size below).inUse = ⟨base, size⟩ :: heap.inUse := rfl

@[simp] theorem overwrite_mem (start size : Nat) (source : Nat → UInt8) :
    (heap.overwrite start size source).mem = heap.mem.overwrite start size source := rfl

@[simp] theorem overwrite_inUse (start size : Nat) (source : Nat → UInt8) :
    (heap.overwrite start size source).inUse = heap.inUse := rfl

end Heap

/-- `AllocatePool`. -/
def poolAllocate (fw : PoolFirmware) (size : Nat) : Pooled (Option Nat) := fun heap =>
  match granted : fw.allocate heap size with
  | none => .ok none heap
  | some base =>
      .ok (some base) (heap.withBlock base size (fw.allocate_below heap size base granted))

/-- `AllocatePool` under `EFIERR`. -/
def poolAllocateOrExit (fw : PoolFirmware) (size : Nat) : Pooled Nat := do
  match ← poolAllocate fw size with
  | some base => return base
  | none => throw .exit

/-- A write of bytes into an object. -/
def writeBytes (object : Extent) (start size : Nat) (source : Nat → UInt8) : Pooled Unit :=
  if object.start ≤ start ∧ start + size ≤ object.start + object.size then
    modify fun heap => heap.overwrite start size source
  else throw .undefined

/-- `memcpy` into an object. Its pointers are `restrict`. -/
def memcpy (object : Extent) (s1 s2 n : Nat) : Pooled Unit := do
  if n ≠ 0 ∧ s1 < s2 + n ∧ s2 < s1 + n then throw .undefined
  let heap ← get
  writeBytes object s1 n fun index => heap.mem (s2 + index)

variable {fw : PoolFirmware} {heap : Heap}

theorem poolAllocateOrExit_some {size base : Nat} (granted : fw.allocate heap size = some base) :
    poolAllocateOrExit fw size heap =
      .ok base (heap.withBlock base size (fw.allocate_below heap size base granted)) := by
  have call : poolAllocate fw size heap =
      .ok (some base) (heap.withBlock base size (fw.allocate_below heap size base granted)) := by
    unfold poolAllocate
    split
    · rename_i refused
      rw [granted] at refused
      cases refused
    · rename_i found given
      rw [granted] at given
      cases given
      rfl
  rw [poolAllocateOrExit, bind_of_ok call]
  rfl

theorem poolAllocateOrExit_none {size : Nat} (refused : fw.allocate heap size = none) :
    poolAllocateOrExit fw size heap = .error .exit heap := by
  have call : poolAllocate fw size heap = .ok none heap := by
    unfold poolAllocate
    split
    · rfl
    · rename_i found given
      rw [refused] at given
      cases given
  rw [poolAllocateOrExit, bind_of_ok call]
  rfl

theorem writeBytes_inside {object : Extent} {start size : Nat} {source : Nat → UInt8}
    (lower : object.start ≤ start) (upper : start + size ≤ object.start + object.size) :
    writeBytes object start size source heap = .ok () (heap.overwrite start size source) := by
  rw [writeBytes, if_pos ⟨lower, upper⟩]
  rfl

theorem writeBytes_outside {object : Extent} {start size : Nat} {source : Nat → UInt8}
    (outside : object.start + object.size < start + size) :
    writeBytes object start size source heap = .error .undefined heap := by
  rw [writeBytes, if_neg (by omega)]
  rfl

theorem memcpy_inside {object : Extent} {s1 s2 n : Nat} (apart : s2 + n ≤ s1 ∨ s1 + n ≤ s2)
    (lower : object.start ≤ s1) (upper : s1 + n ≤ object.start + object.size) :
    memcpy object s1 s2 n heap =
      .ok () (heap.overwrite s1 n fun index => heap.mem (s2 + index)) := by
  rw [memcpy, if_neg (by omega)]
  exact writeBytes_inside lower upper

/-! ## A firmware -/

/-- The first address past every object in use, and past the first megabyte. -/
def Heap.firstFree (heap : Heap) : Nat :=
  (heap.inUse.map fun extent => extent.start + extent.size).foldl max 0x100000

/-- A firmware that hands out pool memory from low to high addresses until memory ends. -/
def bumpPool : PoolFirmware where
  allocate heap size :=
    if heap.firstFree + size ≤ physicalEnd then some heap.firstFree else none
  allocate_nonnull heap size base granted := by
    have past : 0x100000 ≤ heap.firstFree := le_foldl_max (.inr (Nat.le_refl _))
    split at granted
    · cases granted
      omega
    · cases granted
  allocate_below heap size base granted := by
    split at granted
    · rename_i fits
      cases granted
      exact fits
    · cases granted
  allocate_fresh heap size base granted := by
    split at granted
    · cases granted
      intro extent member
      have past : extent.start + extent.size ≤ heap.firstFree :=
        le_foldl_max (.inl (List.mem_map_of_mem member))
      exact (Extent.disjoint_of_le (.inl past)).symm
    · cases granted

end VineyardLoader
