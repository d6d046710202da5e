import VineyardLoader.Uefi.DevicePath

/-!
# Appending device paths

`uefi_devpath_append` copies the first path into a new block and the second over the closing
node of the copy. The new block lies apart from every object in use, so both paths stay as they
are, and the chain over the stop of another is the chain of the joined nodes
(`uefiDevpathAppend_cases`).

The bytes of a path determine its nodes (`HoldsPath.unique`), so appending is associative up to
the nodes and the empty path is its unit (`uefiDevpathAppend_spec`).
-/

set_option autoImplicit false

namespace VineyardLoader

variable {fw : PoolFirmware} {heap final : Heap} {address other first second : Nat}
  {path joined : DevicePath}

/-- Ranges that are apart and not empty lie one after the other. -/
theorem Extent.Disjoint.ordered {one two : Extent} (apart : one.Disjoint two)
    (some : 0 < one.size) (more : 0 < two.size) :
    one.start + one.size ≤ two.start ∨ two.start + two.size ≤ one.start := by
  by_contra overlap
  rw [not_or] at overlap
  refine apart (max one.start two.start) ?_ ?_
  · unfold Extent.Contains
    omega
  · unfold Extent.Contains
    omega

namespace Heap.HoldsPath

/-- **The memory determines the path.** -/
theorem unique (holds : heap.HoldsPath address path) (also : heap.HoldsPath address joined) :
    path = joined := by
  have prefixed : ∀ {one two : DevicePath}, one.size ≤ two.size →
      heap.HoldsPath address one → heap.HoldsPath address two → one = two := by
    intro one two shorter holdsOne holdsTwo
    have bytes := holdsTwo.bytes
    obtain ⟨rest, longer⟩ := Nat.exists_eq_add_of_le shorter
    rw [longer, Memory.bytes_add, holdsOne.bytes, ← List.append_nil (devicePathCode.chain two)]
      at bytes
    exact devicePathCode.chain_cancel bytes
  rcases Nat.le_total path.size joined.size with shorter | longer
  · exact prefixed shorter holds also
  · exact (prefixed longer also holds).symm

/-- A path stays where the objects in use keep their bytes. -/
theorem keep (holds : heap.HoldsPath address path)
    (inUse : ∀ extent ∈ heap.inUse, extent ∈ final.inUse)
    (same : ∀ extent ∈ heap.inUse, ∀ place, extent.Contains place →
      final.mem place = heap.mem place) : final.HoldsPath address path := by
  obtain ⟨extent, member, lower, upper⟩ := holds.object
  refine ⟨holds.nonnull, ⟨extent, inUse extent member, lower, upper⟩, ?_⟩
  rw [← holds.bytes]
  exact Memory.bytes_congr fun index below =>
    same extent member _ (by unfold Extent.Contains; omega)

end Heap.HoldsPath

/-- What an append leaves: the joined path in a new block, and everything else as it was. -/
structure Appended (heap : Heap) (path joined : DevicePath) (devpath : Nat) (final : Heap) :
    Prop where
  holds : final.HoldsPath devpath (path ++ joined)
  inUse : final.inUse = ⟨devpath, path.size + joined.size⟩ :: heap.inUse
  fresh : ∀ extent ∈ heap.inUse, Extent.Disjoint ⟨devpath, path.size + joined.size⟩ extent
  outside : ∀ place, ¬ Extent.Contains ⟨devpath, path.size + joined.size⟩ place →
    final.mem place = heap.mem place

/-- What was in use before an append is as it was. -/
theorem Appended.keep {devpath : Nat} {kept : DevicePath}
    (appended : Appended heap path joined devpath final) (holds : heap.HoldsPath address kept) :
    final.HoldsPath address kept := by
  refine holds.keep (fun extent member => ?_) fun extent member place inside => ?_
  · rw [appended.inUse]
    exact List.mem_cons_of_mem _ member
  · exact appended.outside place fun block => appended.fresh extent member place block inside

/-! ## The two copies -/

section Copies

variable {devpath : Nat}

/-- The heap with the block, after the copy of the first path. -/
def Heap.firstCopied (heap : Heap) (path joined : DevicePath) (first devpath : Nat)
    (below : devpath + (path.size + joined.size) ≤ physicalEnd) : Heap :=
  (heap.withBlock devpath (path.size + joined.size) below).overwrite devpath path.size
    fun index => heap.mem (first + index)

/-- The heap after both copies. -/
def Heap.bothCopied (heap : Heap) (path joined : DevicePath) (first second devpath : Nat)
    (below : devpath + (path.size + joined.size) ≤ physicalEnd) : Heap :=
  (heap.firstCopied path joined first devpath below).overwrite (devpath + path.nodesSize)
    joined.size fun index => (heap.firstCopied path joined first devpath below).mem (second + index)

/-- A new block lies apart from the paths in use. -/
theorem Heap.HoldsPath.apart_of_granted {size : Nat} (nonempty : 0 < size)
    (granted : fw.allocate heap size = some devpath) (holds : heap.HoldsPath address path) :
    address + path.size ≤ devpath ∨ devpath + size ≤ address := by
  obtain ⟨extent, member, lower, upper⟩ := holds.object
  have measure := path.size_eq
  have ordered := (fw.allocate_fresh _ _ _ granted extent member).ordered nonempty (by omega)
  dsimp only at ordered
  omega

variable (holds : heap.HoldsPath first path) (also : heap.HoldsPath second joined)
  (granted : fw.allocate heap (path.size + joined.size) = some devpath)
include holds also granted

/-- The program copies the first path, and the second over the closing node of the copy. -/
theorem uefiDevpathAppend_copies :
    uefiDevpathAppend fw first second heap =
      .ok devpath (heap.bothCopied path joined first second devpath
        (fw.allocate_below _ _ _ granted)) := by
  have belowFirst := holds.below
  have belowSecond := also.below
  have belowBlock := fw.allocate_below _ _ _ granted
  have enough : physicalEnd + physicalEnd < 2 ^ 64 := by decide
  have sizeFirst := path.size_eq
  have sizeSecond := joined.size_eq
  have apartFirst := holds.apart_of_granted (by omega) granted
  have apartSecond := also.apart_of_granted (by omega) granted
  have sum : (path.size + joined.size) % 2 ^ 64 = path.size + joined.size :=
    Nat.mod_eq_of_lt (by omega)
  have closing : (devpath + path.size + 2 ^ 64 - devicePathHeaderSize) % 2 ^ 64 =
      devpath + path.nodesSize := by
    rw [devicePathHeaderSize]
    omega
  have copyFirst : memcpy ⟨devpath, path.size + joined.size⟩ devpath first path.size
      (heap.withBlock devpath (path.size + joined.size) belowBlock) =
        .ok () (heap.firstCopied path joined first devpath belowBlock) := by
    rw [memcpy_inside (by omega) (Nat.le_refl devpath) (by dsimp only; omega),
      Heap.withBlock_mem]
    rfl
  have copySecond : memcpy ⟨devpath, path.size + joined.size⟩ (devpath + path.nodesSize) second
      joined.size (heap.firstCopied path joined first devpath belowBlock) =
        .ok () (heap.bothCopied path joined first second devpath belowBlock) :=
    memcpy_inside (by omega) (Nat.le_add_right _ _) (by dsimp only; omega)
  have valid : ¬ ((!uefiDevpathValid first || !uefiDevpathValid second) = true) := by
    simp [uefiDevpathValid, holds.nonnull, also.nonnull]
  rw [uefiDevpathAppend, if_neg valid]
  dsimp -zeta only
  rw [bind_of_ok holds.uefiDevpathSize_run, bind_of_ok also.uefiDevpathSize_run, sum,
    bind_of_ok (poolAllocateOrExit_some granted), closing, bind_of_ok copyFirst,
    bind_of_ok copySecond, pure_run]

/-- The block holds the nodes of the first path and then the second. -/
theorem bothCopied_bytes :
    (heap.bothCopied path joined first second devpath
      (fw.allocate_below _ _ _ granted)).mem.bytes devpath (DevicePath.size (path ++ joined)) =
        devicePathCode.chain (path ++ joined) := by
  have sizeFirst := path.size_eq
  have sizeSecond := joined.size_eq
  have apartSecond := also.apart_of_granted (by omega) granted
  have size : DevicePath.size (path ++ joined) = path.nodesSize + joined.size := by
    have size := DevicePath.size_append path joined
    omega
  have nodes : (heap.firstCopied path joined first devpath
      (fw.allocate_below _ _ _ granted)).mem.bytes devpath path.nodesSize =
        devicePathCode.records path := by
    rw [← holds.parts.1]
    refine Memory.bytes_congr fun index below => ?_
    rw [Heap.firstCopied, Heap.overwrite_mem, Memory.overwrite_offset _ (by omega)]
  have source : Memory.bytes (fun index => (heap.firstCopied path joined first devpath
      (fw.allocate_below _ _ _ granted)).mem (second + index)) 0 joined.size =
        devicePathCode.chain joined := by
    rw [← also.bytes]
    refine Memory.bytes_congr fun index below => ?_
    rw [Nat.zero_add, Heap.firstCopied, Heap.overwrite_mem, Heap.withBlock_mem,
      Memory.overwrite_outside _ (by omega)]
  rw [size, Memory.bytes_add, RecordCode.chain_append, Heap.bothCopied, Heap.overwrite_mem,
    Memory.bytes_overwrite_of_disjoint _ (by omega), Memory.bytes_overwrite, nodes, source]

theorem bothCopied_appended :
    Appended heap path joined devpath (heap.bothCopied path joined first second devpath
      (fw.allocate_below _ _ _ granted)) := by
  have sizeFirst := path.size_eq
  refine ⟨⟨fw.allocate_nonnull _ _ _ granted, ?_, bothCopied_bytes holds also granted⟩, rfl,
    fw.allocate_fresh _ _ _ granted, ?_⟩
  · refine ⟨⟨devpath, path.size + joined.size⟩, List.mem_cons_self, Nat.le_refl _, ?_⟩
    have size := DevicePath.size_append path joined
    dsimp only
    omega
  · intro place notIn
    unfold Extent.Contains at notIn
    dsimp only at notIn
    rw [Heap.bothCopied, Heap.overwrite_mem, Memory.overwrite_outside _ (by omega),
      Heap.firstCopied, Heap.overwrite_mem, Memory.overwrite_outside _ (by omega),
      Heap.withBlock_mem]

end Copies

section Granted

variable (holds : heap.HoldsPath first path) (also : heap.HoldsPath second joined)
include holds also

theorem uefiDevpathAppend_refused
    (refused : fw.allocate heap (path.size + joined.size) = none) :
    uefiDevpathAppend fw first second heap = .error .exit heap := by
  have belowFirst := holds.below
  have belowSecond := also.below
  have enough : physicalEnd + physicalEnd < 2 ^ 64 := by decide
  have sum : (path.size + joined.size) % 2 ^ 64 = path.size + joined.size :=
    Nat.mod_eq_of_lt (by omega)
  have valid : ¬ ((!uefiDevpathValid first || !uefiDevpathValid second) = true) := by
    simp [uefiDevpathValid, holds.nonnull, also.nonnull]
  have stops : poolAllocateOrExit fw (path.size + joined.size) heap = .error .exit heap :=
    poolAllocateOrExit_none refused
  rw [uefiDevpathAppend, if_neg valid]
  dsimp -zeta only
  rw [bind_of_ok holds.uefiDevpathSize_run, bind_of_ok also.uefiDevpathSize_run, sum, bind_run,
    stops]

/-- **An append of two paths** joins them in a new block, unless the firmware has none. -/
theorem uefiDevpathAppend_cases :
    (∃ devpath final, uefiDevpathAppend fw first second heap = .ok devpath final ∧
      Appended heap path joined devpath final) ∨
    (fw.allocate heap (path.size + joined.size) = none ∧
      uefiDevpathAppend fw first second heap = .error .exit heap) := by
  cases granted : fw.allocate heap (path.size + joined.size) with
  | none => exact .inr ⟨rfl, uefiDevpathAppend_refused holds also granted⟩
  | some devpath => exact .inl ⟨devpath, _, uefiDevpathAppend_copies holds also granted,
      bothCopied_appended holds also granted⟩

/-- An append that returned joined the paths. -/
theorem uefiDevpathAppend_ok {devpath : Nat}
    (run : uefiDevpathAppend fw first second heap = .ok devpath final) :
    Appended heap path joined devpath final := by
  rcases @uefiDevpathAppend_cases fw heap first second path joined holds also with
    ⟨found, reached, returns, appended⟩ | ⟨-, stops⟩
  · rw [run] at returns
    cases returns
    exact appended
  · rw [run] at stops
    cases stops

end Granted

/-! ## The algebra of paths -/

/-- Three paths, the first two appended first. -/
def appendLeft (fw : PoolFirmware) (first second third : Nat) : Pooled Nat := do
  let devpath ← uefiDevpathAppend fw first second
  uefiDevpathAppend fw devpath third

/-- Three paths, the last two appended first. -/
def appendRight (fw : PoolFirmware) (first second third : Nat) : Pooled Nat := do
  let devpath ← uefiDevpathAppend fw second third
  uefiDevpathAppend fw first devpath

section Three

variable {third : Nat} {more : DevicePath} (holds : heap.HoldsPath first path)
  (also : heap.HoldsPath second joined) (last : heap.HoldsPath third more)
include holds also last

theorem appendLeft_ok {devpath : Nat}
    (run : appendLeft fw first second third heap = .ok devpath final) :
    final.HoldsPath devpath (path ++ joined ++ more) := by
  obtain ⟨middle, between, one, two⟩ := bind_eq_ok.mp run
  have appended := uefiDevpathAppend_ok holds also one
  exact (uefiDevpathAppend_ok appended.holds (appended.keep last) two).holds

theorem appendRight_ok {devpath : Nat}
    (run : appendRight fw first second third heap = .ok devpath final) :
    final.HoldsPath devpath (path ++ joined ++ more) := by
  obtain ⟨middle, between, one, two⟩ := bind_eq_ok.mp run
  have appended := uefiDevpathAppend_ok also last one
  rw [List.append_assoc]
  exact (uefiDevpathAppend_ok (appended.keep holds) appended.holds two).holds

end Three

/-- What an append of two paths gives that returned: a path of the nodes of both, whose size is
that of both less one closing node, with the paths as they were and every write in the new
block. -/
structure Joins (heap : Heap) (first second : Nat) (path joined : DevicePath) (devpath : Nat)
    (final : Heap) : Prop where
  holds : final.HoldsPath devpath (path ++ joined)
  size : ∃ firstSize secondSize, uefiDevpathSize first heap = .ok firstSize heap ∧
    uefiDevpathSize second heap = .ok secondSize heap ∧
    uefiDevpathSize devpath final = .ok (firstSize + secondSize - 4) final ∧
    (∀ place, ¬ Extent.Contains ⟨devpath, firstSize + secondSize⟩ place →
      final.mem place = heap.mem place) ∧
    final.inUse = ⟨devpath, firstSize + secondSize⟩ :: heap.inUse
  first : final.HoldsPath first path ∧
    final.mem.bytes first path.size = heap.mem.bytes first path.size
  second : final.HoldsPath second joined ∧
    final.mem.bytes second joined.size = heap.mem.bytes second joined.size

/-- Appending is an operation on lists of nodes: it joins them, it is associative, and the path
without nodes is its unit. The memory determines the nodes. -/
structure AppendsPaths (fw : PoolFirmware) : Prop where
  joins : ∀ heap first second path joined, heap.HoldsPath first path →
    heap.HoldsPath second joined →
      (∃ devpath final, uefiDevpathAppend fw first second heap = .ok devpath final ∧
        Joins heap first second path joined devpath final) ∨
      (fw.allocate heap (path.size + joined.size) = none ∧
        uefiDevpathAppend fw first second heap = .error .exit heap)
  nodes : ∀ (heap : Heap) address path joined, heap.HoldsPath address path →
    heap.HoldsPath address joined → path = joined
  assoc : ∀ heap first second third path joined more, heap.HoldsPath first path →
    heap.HoldsPath second joined → heap.HoldsPath third more →
      ∀ left leftHeap right rightHeap,
        appendLeft fw first second third heap = .ok left leftHeap →
        appendRight fw first second third heap = .ok right rightHeap →
          ∀ nodes, leftHeap.HoldsPath left nodes ↔ rightHeap.HoldsPath right nodes
  unit : ∀ heap empty place path devpath final, heap.HoldsPath empty [] →
    heap.HoldsPath place path →
      uefiDevpathAppend fw empty place heap = .ok devpath final ∨
        uefiDevpathAppend fw place empty heap = .ok devpath final →
          final.HoldsPath devpath path

theorem Appended.joins {devpath : Nat} (holds : heap.HoldsPath first path)
    (also : heap.HoldsPath second joined) (appended : Appended heap path joined devpath final) :
    Joins heap first second path joined devpath final where
  holds := appended.holds
  size := by
    have size : DevicePath.size (path ++ joined) = path.size + joined.size - 4 := by
      have size := DevicePath.size_append path joined
      omega
    refine ⟨path.size, joined.size, holds.uefiDevpathSize_run, also.uefiDevpathSize_run, ?_,
      appended.outside, appended.inUse⟩
    rw [← size]
    exact appended.holds.uefiDevpathSize_run
  first := ⟨appended.keep holds, (appended.keep holds).bytes.trans holds.bytes.symm⟩
  second := ⟨appended.keep also, (appended.keep also).bytes.trans also.bytes.symm⟩

/-- **Device paths are appended as lists of nodes**, on every firmware and every memory. -/
theorem uefiDevpathAppend_spec (fw : PoolFirmware) : AppendsPaths fw where
  joins heap first second path joined holds also := by
    rcases @uefiDevpathAppend_cases fw heap first second path joined holds also with
      ⟨devpath, final, run, appended⟩ | refused
    · exact .inl ⟨devpath, final, run, appended.joins holds also⟩
    · exact .inr refused
  nodes _ _ _ _ holds also := holds.unique also
  assoc heap first second third path joined more holds also last left leftHeap right rightHeap
      runLeft runRight nodes := by
    have leftPath := appendLeft_ok holds also last runLeft
    have rightPath := appendRight_ok holds also last runRight
    constructor
    · intro leftNodes
      rwa [leftNodes.unique leftPath]
    · intro rightNodes
      rwa [rightNodes.unique rightPath]
  unit heap empty place path devpath final none holds run := by
    rcases run with before | after
    · exact (uefiDevpathAppend_ok none holds before).holds
    · have joined := (uefiDevpathAppend_ok holds none after).holds
      rwa [List.append_nil] at joined

/-- A PCI node. -/
def pciNode : DevicePathNode := ⟨1, 1, [0x00, 0x1F], by decide, by decide⟩

/-- A file node for the name `k`. -/
def kernelNode : DevicePathNode := ⟨4, 4, [0x6B, 0, 0, 0], by decide, by decide⟩

/-- A heap with the path of a device and the path of a file on it. -/
def deviceAndFile : Heap where
  mem place := if place < 0x2000 then (devicePathCode.chain [pciNode]).getD (place - 0x1000) 0
    else (devicePathCode.chain [kernelNode]).getD (place - 0x2000) 0
  inUse := [⟨0x1000, 10⟩, ⟨0x2000, 12⟩]
  below := by decide

/-- The file node takes the place of the closing node of the device. -/
theorem uefiDevpathAppend_device :
    ∃ devpath final, uefiDevpathAppend bumpPool 0x1000 0x2000 deviceAndFile = .ok devpath final ∧
      Joins deviceAndFile 0x1000 0x2000 [pciNode] [kernelNode] devpath final ∧
      final.mem.bytes devpath 18 =
        [1, 1, 6, 0, 0x00, 0x1F, 4, 4, 8, 0, 0x6B, 0, 0, 0, 0x7F, 0xFF, 4, 0] := by
  have device : deviceAndFile.HoldsPath 0x1000 [pciNode] :=
    ⟨by decide, ⟨⟨0x1000, 10⟩, by decide, by decide, by decide⟩, by decide +kernel⟩
  have file : deviceAndFile.HoldsPath 0x2000 [kernelNode] :=
    ⟨by decide, ⟨⟨0x2000, 12⟩, by decide, by decide, by decide⟩, by decide +kernel⟩
  rcases (uefiDevpathAppend_spec bumpPool).joins _ _ _ _ _ device file with
    ⟨devpath, final, run, joins⟩ | ⟨refused, -⟩
  · exact ⟨devpath, final, run, joins, joins.holds.bytes⟩
  · have granted : bumpPool.allocate deviceAndFile 22 = some 0x100000 := by decide +kernel
    exact absurd (granted.symm.trans refused) (Option.some_ne_none _)

end VineyardLoader
