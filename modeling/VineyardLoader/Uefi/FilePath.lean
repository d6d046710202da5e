import VineyardLoader.Uefi.Append
import VineyardLoader.Uefi.Text

/-!
# Device paths of files

`uefi_devpath_from_path` makes a path of one file node: a header, the name with its zero unit,
and the closing node. It allocates just that much. It then stores one more zero unit, at the index
that is the size of the name in bytes, while the name is an array of 16-bit units.

That store leaves the block for every name but the empty one (`fileNode_built_iff`), the name of
the driver that the loader starts included (`driverName_not_built`).
-/

set_option autoImplicit false

namespace VineyardLoader

/-- `offsetof(uefi_filepath_device_path, path_name)`. -/
def pathNameOffset : Nat := 4

/-- `uefi_devpath_set_node_length` of a node in an object. -/
def uefiDevpathSetNodeLength (object : Extent) (node length : Nat) : Pooled Unit := do
  if node = 0 ∨ length < devicePathHeaderSize then
    throw (.panic "uefi_devpath_set_node_length: error")
  writeBytes object (node + 2) 2 fun index => UInt8.ofNat (length % 2 ^ 16 / 256 ^ index)

/-- `uefi_devpath_set_end` of a node in an object. -/
def uefiDevpathSetEnd (object : Extent) (node : Nat) : Pooled Unit := do
  if node = 0 then throw (.panic "uefi_devpath_set_end: error")
  writeBytes object node 4 fun index => emptyDevpath.getD index 0

/-- The part of `uefi_devpath_from_path` that fills the block of the file node. The size is that
of the name in bytes, with its zero unit. -/
def fillFileNode (object : Extent) (filename size : Nat) : Pooled Unit := do
  let filePath := object.start
  writeBytes object filePath 1 fun _ => devicePathMedia
  writeBytes object (filePath + 1) 1 fun _ => devicePathMedia
  memcpy object (filePath + pathNameOffset) filename size
  -- the index counts units
  writeBytes object (filePath + pathNameOffset + 2 * size) 2 fun _ => 0
  uefiDevpathSetNodeLength object filePath (size + pathNameOffset)
  let heap ← get
  uefiDevpathSetEnd object (uefiDevpathGetNext heap.mem filePath)

/-- `efi_strlen` of a string in the heap. -/
def callEfiStrlen (str : Nat) : Pooled Nat := do
  let heap ← get
  match efiStrlen heap.mem str with
  | none => throw .diverged
  | some length => return length

/-- `uefi_devpath_from_path`. The path of the device is that of the firmware's protocols. -/
def uefiDevpathFromPath (fw : PoolFirmware) (fromFileHandle : Nat → Pooled Nat)
    (device filename : Nat) : Pooled Nat := do
  let length ← callEfiStrlen filename
  let size := ((length + 1) * 2) % 2 ^ 64
  let bytes := (size + pathNameOffset + devicePathHeaderSize) % 2 ^ 64
  let fileDevpath ← poolAllocateOrExit fw bytes
  if fileDevpath = 0 then return 0
  fillFileNode ⟨fileDevpath, bytes⟩ filename size
  let devpath ← if device = 0 then pure 0 else fromFileHandle device
  uefiDevpathAppend fw devpath fileDevpath

section Nodes

variable {object : Extent} {heap : Heap} {node length : Nat} (nonnull : node ≠ 0)
  (lower : object.start ≤ node) (upper : node + 4 ≤ object.start + object.size)
include nonnull lower upper

/-- A node keeps its length modulo 16 bits. -/
theorem uefiDevpathSetNodeLength_run (long : devicePathHeaderSize ≤ length) :
    ∃ final : Heap, uefiDevpathSetNodeLength object node length heap = .ok () final ∧
      uefiDevpathGetNodeLength final.mem node = length % 2 ^ 16 := by
  refine ⟨heap.overwrite (node + 2) 2 fun index => UInt8.ofNat (length % 2 ^ 16 / 256 ^ index),
    ?_, ?_⟩
  · rw [uefiDevpathSetNodeLength, if_neg (by omega)]
    exact writeBytes_inside (by omega) (by omega)
  · have load := heap.mem.loadLE_storeLE (node + 2) 2 (length % 2 ^ 16)
    exact load.trans (Nat.mod_mod length (2 ^ 16))

/-- The closing node is written, and nothing else. -/
theorem uefiDevpathSetEnd_run :
    ∃ final : Heap, uefiDevpathSetEnd object node heap = .ok () final ∧
      final.mem.bytes node 4 = emptyDevpath ∧
      ∀ place, place < node ∨ node + 4 ≤ place → final.mem place = heap.mem place := by
  refine ⟨heap.overwrite node 4 fun index => emptyDevpath.getD index 0, ?_, ?_, ?_⟩
  · rw [uefiDevpathSetEnd, if_neg nonnull]
    exact writeBytes_inside lower upper
  · rw [Heap.overwrite_mem, Memory.bytes_overwrite]
    rfl
  · intro place outside
    rw [Heap.overwrite_mem, Memory.overwrite_outside _ outside]

end Nodes

/-! ## The file node -/

/-- The heap holds a file name of so many units, inside an object in use. -/
structure Heap.HoldsName (heap : Heap) (filename length : Nat) : Prop where
  text : HoldsText heap.mem filename length
  object : ∃ extent ∈ heap.inUse, extent.start ≤ filename ∧
    filename + 2 * (length + 1) ≤ extent.start + extent.size

/-- The size of the name with its zero unit, and the size of the block. -/
def nameSize (length : Nat) : Nat := 2 * (length + 1)
def fileBlockSize (length : Nat) : Nat := nameSize length + pathNameOffset + devicePathHeaderSize

/-- The file node is built: every write went into the block, the node stores the length of the
header and the name, and the node after it is the closing one that was written. -/
def FileNodeBuilt (heap : Heap) (base filename length : Nat) : Prop :=
  ∃ final, fillFileNode ⟨base, fileBlockSize length⟩ filename (nameSize length) heap =
      .ok () final ∧
    uefiDevpathGetNodeLength final.mem base = nameSize length + pathNameOffset ∧
    uefiDevpathGetNext final.mem base = base + (nameSize length + pathNameOffset) ∧
    final.mem.bytes (uefiDevpathGetNext final.mem base) 4 = emptyDevpath

/-- The heap where the extra zero unit is stored: the block is in use and has the name in it, and
all of the unit lies past the end of the block. -/
structure AtExtraUnit (heap stopped : Heap) (base filename length : Nat) : Prop where
  block : ⟨base, fileBlockSize length⟩ ∈ stopped.inUse
  name : stopped.mem.bytes (base + pathNameOffset) (nameSize length) =
    heap.mem.bytes filename (nameSize length)
  past : base + fileBlockSize length ≤ base + pathNameOffset + 2 * nameSize length

section Built

variable {fw : PoolFirmware} {heap : Heap} {filename length base : Nat}
  (name : heap.HoldsName filename length)
  (granted : fw.allocate heap (fileBlockSize length) = some base)
include name granted

/-- The header and the name are written into the block. -/
theorem fillFileNode_name :
    ∃ named : Heap, fillFileNode ⟨base, fileBlockSize length⟩ filename (nameSize length)
        (heap.withBlock base (fileBlockSize length) (fw.allocate_below _ _ _ granted)) = (do
      writeBytes ⟨base, fileBlockSize length⟩ (base + pathNameOffset + 2 * nameSize length) 2
        fun _ => 0
      uefiDevpathSetNodeLength ⟨base, fileBlockSize length⟩ base
        (nameSize length + pathNameOffset)
      let heap ← get
      uefiDevpathSetEnd ⟨base, fileBlockSize length⟩ (uefiDevpathGetNext heap.mem base) :
        Pooled Unit) named ∧
      ⟨base, fileBlockSize length⟩ ∈ named.inUse ∧
      named.mem.bytes (base + pathNameOffset) (nameSize length) =
        heap.mem.bytes filename (nameSize length) := by
  obtain ⟨extent, member, lower, upper⟩ := name.object
  have apart := (fw.allocate_fresh _ _ _ granted extent member).ordered
    (by simp only [fileBlockSize, pathNameOffset]; omega) (by omega)
  have size : fileBlockSize length = nameSize length + 8 := rfl
  have bytes : nameSize length = 2 * (length + 1) := rfl
  have offset : pathNameOffset = 4 := rfl
  dsimp only at apart
  rw [fillFileNode]
  dsimp only
  rw [bind_of_ok (writeBytes_inside (Nat.le_refl base) (by dsimp only; omega)),
    bind_of_ok (writeBytes_inside (Nat.le_add_right base 1) (by dsimp only; omega)),
    bind_of_ok (memcpy_inside (by omega) (Nat.le_add_right base _) (by dsimp only; omega))]
  refine ⟨_, rfl, List.mem_cons_self, ?_⟩
  -- the header is written before the name is copied
  rw [Heap.overwrite_mem, Memory.bytes_overwrite]
  refine Memory.bytes_congr fun index inside => ?_
  rw [Nat.zero_add]
  simp only [Heap.overwrite_mem]
  rw [Memory.overwrite_outside _ (by omega), Memory.overwrite_outside _ (by omega)]
  rfl

/-- **The extra zero unit** leaves the block of every name that is not empty. -/
theorem fillFileNode_undefined (long : length ≠ 0) :
    ∃ final, fillFileNode ⟨base, fileBlockSize length⟩ filename (nameSize length)
      (heap.withBlock base (fileBlockSize length) (fw.allocate_below _ _ _ granted)) =
        .error .undefined final ∧ AtExtraUnit heap final base filename length := by
  obtain ⟨named, rest, block, text⟩ := fillFileNode_name name granted
  have size : fileBlockSize length = nameSize length + 8 := rfl
  have bytes : nameSize length = 2 * (length + 1) := rfl
  have offset : pathNameOffset = 4 := rfl
  rw [rest, bind_run, writeBytes_outside (by dsimp only; omega)]
  exact ⟨_, rfl, block, text, by omega⟩

/-- The empty name fits, and the extra zero unit goes where the closing node is written later. -/
theorem fileNode_built_of_empty (empty : length = 0) :
    FileNodeBuilt (heap.withBlock base (fileBlockSize length) (fw.allocate_below _ _ _ granted))
      base filename length := by
  obtain ⟨named, rest, -⟩ := fillFileNode_name name granted
  subst empty
  have below := fw.allocate_below _ _ _ granted
  have nonnull := fw.allocate_nonnull _ _ _ granted
  have enough : physicalEnd < 2 ^ 64 := by decide
  have size : fileBlockSize 0 = 10 := rfl
  have bytes : nameSize 0 = 2 := rfl
  have offset : pathNameOffset = 4 := rfl
  have header : devicePathHeaderSize = 4 := rfl
  rw [size] at below
  obtain ⟨zeroed, zeroes⟩ : ∃ zeroed, writeBytes ⟨base, fileBlockSize 0⟩
      (base + pathNameOffset + 2 * nameSize 0) 2 (fun _ => 0) named = .ok () zeroed :=
    ⟨_, writeBytes_inside (by dsimp only; omega) (by dsimp only; omega)⟩
  obtain ⟨stored, stores, length⟩ : ∃ stored : Heap,
      uefiDevpathSetNodeLength ⟨base, fileBlockSize 0⟩ base (nameSize 0 + pathNameOffset) zeroed =
        .ok () stored ∧ uefiDevpathGetNodeLength stored.mem base =
          (nameSize 0 + pathNameOffset) % 2 ^ 16 :=
    uefiDevpathSetNodeLength_run nonnull (Nat.le_refl base) (by dsimp only; omega) (by omega)
  have next : ∀ {mem : Memory}, uefiDevpathGetNodeLength mem base = 6 →
      uefiDevpathGetNext mem base = base + 6 := by
    intro mem six
    rw [uefiDevpathGetNext, six, Nat.mod_eq_of_lt (by omega)]
  have six : uefiDevpathGetNodeLength stored.mem base = 6 := length
  obtain ⟨final, closes, closing, outside⟩ : ∃ final : Heap,
      uefiDevpathSetEnd ⟨base, fileBlockSize 0⟩ (base + 6) stored = .ok () final ∧
        final.mem.bytes (base + 6) 4 = emptyDevpath ∧
        ∀ place, place < base + 6 ∨ base + 6 + 4 ≤ place → final.mem place = stored.mem place :=
    uefiDevpathSetEnd_run (by omega) (by dsimp only; omega) (by dsimp only; omega)
  have kept : uefiDevpathGetNodeLength final.mem base = 6 := by
    rw [← six]
    exact Memory.loadLE_congr fun index below => outside _ (by omega)
  refine ⟨final, ?_, kept, next kept, ?_⟩
  · rw [rest, bind_of_ok zeroes, bind_of_ok stores, bind_of_ok (get_run _), next six]
    exact closes
  · rw [next kept]
    exact closing

end Built

/-- After the allocation, `uefi_devpath_from_path` fills the block. -/
theorem uefiDevpathFromPath_run {fw : PoolFirmware} {heap : Heap} {filename length base : Nat}
    (name : heap.HoldsName filename length)
    (granted : fw.allocate heap (fileBlockSize length) = some base)
    (fromFileHandle : Nat → Pooled Nat) (device : Nat) :
    uefiDevpathFromPath fw fromFileHandle device filename heap = (do
      fillFileNode ⟨base, fileBlockSize length⟩ filename (nameSize length)
      let devpath ← if device = 0 then pure 0 else fromFileHandle device
      uefiDevpathAppend fw devpath base)
        (heap.withBlock base (fileBlockSize length) (fw.allocate_below _ _ _ granted)) := by
  obtain ⟨extent, member, -, upper⟩ := name.object
  have below := heap.below extent member
  have enough : physicalEnd + physicalEnd < 2 ^ 64 := by decide
  have measured : callEfiStrlen filename heap = .ok length heap := by
    rw [callEfiStrlen, bind_of_ok (get_run _),
      efiStrlen_eq_some_iff.mpr ⟨by omega, name.text⟩]
    rfl
  have size : (length + 1) * 2 % 2 ^ 64 = nameSize length := by
    rw [nameSize]
    omega
  have bytes : (nameSize length + pathNameOffset + devicePathHeaderSize) % 2 ^ 64 =
      fileBlockSize length := by
    rw [fileBlockSize, nameSize, pathNameOffset, devicePathHeaderSize]
    omega
  rw [uefiDevpathFromPath, bind_of_ok measured, size, bytes,
    bind_of_ok (poolAllocateOrExit_some granted), if_neg (fw.allocate_nonnull _ _ _ granted)]

/-- Without memory for the path, `uefi_devpath_from_path` exits. -/
theorem uefiDevpathFromPath_refused {fw : PoolFirmware} {heap : Heap} {filename length : Nat}
    (name : heap.HoldsName filename length)
    (refused : fw.allocate heap (fileBlockSize length) = none)
    (fromFileHandle : Nat → Pooled Nat) (device : Nat) :
    uefiDevpathFromPath fw fromFileHandle device filename heap = .error .exit heap := by
  obtain ⟨extent, member, -, upper⟩ := name.object
  have below := heap.below extent member
  have enough : physicalEnd + physicalEnd < 2 ^ 64 := by decide
  have measured : callEfiStrlen filename heap = .ok length heap := by
    rw [callEfiStrlen, bind_of_ok (get_run _), efiStrlen_eq_some_iff.mpr ⟨by omega, name.text⟩]
    rfl
  have bytes : ((length + 1) * 2 % 2 ^ 64 + pathNameOffset + devicePathHeaderSize) % 2 ^ 64 =
      fileBlockSize length := by
    rw [fileBlockSize, nameSize, pathNameOffset, devicePathHeaderSize]
    omega
  rw [uefiDevpathFromPath, bind_of_ok measured]
  dsimp only
  rw [bytes, bind_run, poolAllocateOrExit_none refused]

/-- **The file node of a path** is built inside its block exactly for the empty name. For any
other name `uefi_devpath_from_path` stores a zero unit past the end of the block. -/
theorem fileNode_built_iff (fw : PoolFirmware) (heap : Heap) (filename length base : Nat)
    (name : heap.HoldsName filename length)
    (granted : fw.allocate heap (fileBlockSize length) = some base) :
    (FileNodeBuilt (heap.withBlock base (fileBlockSize length) (fw.allocate_below _ _ _ granted))
      base filename length ↔ length = 0) ∧
    (length ≠ 0 → ∀ fromFileHandle device, ∃ final,
      uefiDevpathFromPath fw fromFileHandle device filename heap = .error .undefined final) := by
  refine ⟨⟨?_, fileNode_built_of_empty name granted⟩, ?_⟩
  · rintro ⟨final, run, -⟩
    by_contra long
    obtain ⟨stopped, stops, -⟩ := fillFileNode_undefined name granted long
    rw [run] at stops
    cases stops
  · intro long fromFileHandle device
    obtain ⟨stopped, stops, -⟩ := fillFileNode_undefined name granted long
    rw [uefiDevpathFromPath_run name granted, bind_run, stops]
    exact ⟨stopped, rfl⟩

/-- A heap with a file name at an address. -/
def nameHeap (units : List UInt8) (small : units.length < 2 ^ 16) : Heap where
  mem place := units.getD (place - 0x1000) 0
  inUse := [⟨0x1000, units.length + 2⟩]
  below := by
    simp only [List.mem_singleton, forall_eq, physicalEnd]
    omega

/-- The empty name. -/
def emptyName : Heap := nameHeap [] (by decide)

theorem fileNode_built_sample :
    ∃ base below,
      FileNodeBuilt (emptyName.withBlock base (fileBlockSize 0) below) base 0x1000 0 := by
  have name : emptyName.HoldsName 0x1000 0 :=
    ⟨⟨fun i below => absurd below (Nat.not_lt_zero i), by decide +kernel⟩,
      ⟨0x1000, 2⟩, List.mem_singleton_self _, by decide, by decide⟩
  have granted : bumpPool.allocate emptyName (fileBlockSize 0) = some 0x100000 := by
    decide +kernel
  exact ⟨0x100000, _, (fileNode_built_iff bumpPool emptyName 0x1000 0 0x100000 name granted).1.mpr
    rfl⟩

/-- The name of the driver that the loader starts, `btrfs.efi`. -/
def driverName : Heap :=
  nameHeap [0x62, 0, 0x74, 0, 0x72, 0, 0x66, 0, 0x73, 0, 0x2E, 0, 0x65, 0, 0x66, 0, 0x69, 0]
    (by decide)

/-- The zero unit is stored 44 bytes into a block of 28. -/
theorem driverName_not_built :
    driverName.HoldsName 0x1000 9 ∧
    bumpPool.allocate driverName (fileBlockSize 9) = some 0x100000 ∧
    (∀ below, ¬ FileNodeBuilt (driverName.withBlock 0x100000 (fileBlockSize 9) below) 0x100000
      0x1000 9) ∧
    ∀ fromFileHandle device, ∃ final,
      uefiDevpathFromPath bumpPool fromFileHandle device 0x1000 driverName =
        .error .undefined final := by
  have name : driverName.HoldsName 0x1000 9 :=
    ⟨⟨by decide +kernel, by decide +kernel⟩, ⟨0x1000, 20⟩, List.mem_singleton_self _, by decide,
      by decide⟩
  have granted : bumpPool.allocate driverName (fileBlockSize 9) = some 0x100000 := by
    decide +kernel
  refine ⟨name, granted, ?_, ?_⟩
  · rintro below ⟨final, run, -⟩
    obtain ⟨stopped, stops, -⟩ := fillFileNode_undefined name granted (by decide)
    rw [run] at stops
    cases stops
  · intro fromFileHandle device
    obtain ⟨stopped, stops, -⟩ := fillFileNode_undefined name granted (by decide)
    rw [uefiDevpathFromPath_run name granted, bind_run, stops]
    exact ⟨stopped, rfl⟩

end VineyardLoader
