import VineyardLoader.Uefi.Append

/-!
# Device paths that are accepted

`uefi_devpath_valid` looks at the pointer only, and its comment says that the check is still to
be written. The walk of `uefi_devpath_size` behind it goes by the lengths that the nodes store,
whatever they are.

The walk ends, and climbs by a header at least with every turn, exactly when memory starts with
a list of nodes and a closing one (`accepted_walkable_iff`). A node of length zero is walked for
ever (`zeroNode_not_walkable`).
-/

set_option autoImplicit false

namespace VineyardLoader

variable {heap : Heap} {mem : Memory} {device start last turns : Nat}

/-! ## Paths from walks -/

/-- A length in memory that is at least a header is that of a node. -/
theorem exists_node_of_length (long : 4 ≤ uefiDevpathGetNodeLength mem start)
    (inner : ¬ EndsEntire mem start) :
    ∃ node : DevicePathNode, node.length = uefiDevpathGetNodeLength mem start ∧
      mem.bytes start node.length = node.encode := by
  have short : uefiDevpathGetNodeLength mem start < 2 ^ 16 := mem.loadLE_lt 2 _
  obtain ⟨size, length⟩ := Nat.exists_eq_add_of_le' long
  rw [length] at short
  have small : (mem.bytes (start + 4) size).length + devicePathHeaderSize < 2 ^ 16 := by
    rw [Memory.bytes_length]
    exact short
  obtain ⟨node, fields⟩ : ∃ node : DevicePathNode, node =
    ⟨mem start, mem (start + 1), mem.bytes (start + 4) size, small, inner⟩ := ⟨_, rfl⟩
  have same : node.length = size + 4 := by
    rw [DevicePathNode.length, fields, Memory.bytes_length, devicePathHeaderSize]
  have bytes : size + 4 = (mem (start + 2)).toNat + 256 * (mem (start + 2 + 1)).toNat :=
    length.symm.trans (Memory.loadLE_two mem (start + 2))
  have lowByte := (mem (start + 2)).toNat_lt
  have highByte := (mem (start + 2 + 1)).toNat_lt
  have low : UInt8.ofNat (size + 4) = mem (start + 2) := by
    apply UInt8.toNat_inj.mp
    rw [UInt8.toNat_ofNat', bytes]
    omega
  have high : UInt8.ofNat ((size + 4) / 256) = mem (start + 2 + 1) := by
    apply UInt8.toNat_inj.mp
    rw [UInt8.toNat_ofNat', bytes]
    omega
  refine ⟨node, same.trans length.symm, ?_⟩
  rw [DevicePathNode.encode, same, low, high, Nat.add_comm, Memory.bytes_add, fields]
  rfl

/-- **A walk that climbs goes along a path.** -/
theorem exists_path_of_walksTo :
    ∀ {start : Nat}, start < 2 ^ 64 → WalksTo mem start turns last →
      ∃ path : DevicePath, start + path.nodesSize = last ∧ last < 2 ^ 64 ∧
        mem.bytes start path.nodesSize = devicePathCode.records path := by
  induction turns with
  | zero =>
      intro start below walks
      obtain rfl : start = last := walks.last
      exact ⟨[], rfl, below, rfl⟩
  | succ turns ih =>
      intro start below walks
      have climbs : start + 4 ≤ uefiDevpathGetNext mem start := walks.climbs 0 (Nat.succ_pos _)
      have length : uefiDevpathGetNodeLength mem start < 2 ^ 16 := mem.loadLE_lt 2 _
      -- a step that wraps goes down
      have next : uefiDevpathGetNext mem start =
          start + uefiDevpathGetNodeLength mem start := by
        rw [uefiDevpathGetNext] at climbs ⊢
        omega
      have inside : uefiDevpathGetNext mem start < 2 ^ 64 := Nat.mod_lt _ (by decide)
      rw [next] at climbs inside
      have going : ¬ StopsWalk mem start := walks.ends.before 0 (Nat.succ_pos _)
      obtain ⟨node, size, bytes⟩ := exists_node_of_length
        (show 4 ≤ uefiDevpathGetNodeLength mem start by omega) fun closes => going (.inr closes)
      have rest : WalksTo mem (start + node.length) turns last := by
        rw [size, ← next]
        exact ⟨walks.ends.tail, walks.last,
          fun k less => walks.climbs (k + 1) (Nat.succ_lt_succ less)⟩
      rw [← size] at inside
      obtain ⟨path, reaches, lastBelow, tail⟩ := ih inside rest
      refine ⟨node :: path, ?_, lastBelow, ?_⟩
      · rw [DevicePath.nodesSize_cons, ← Nat.add_assoc, reaches]
      · rw [DevicePath.nodesSize_cons, Memory.bytes_add, bytes, tail, RecordCode.records_cons]
        rfl

/-! ## The loop -/

/-- The walk starts below the end of the address space and stays there. -/
theorem uefiDevpathGetNext_mem (mem : Memory) :
    ∀ node ∈ Finset.range (2 ^ 64), uefiDevpathGetNext mem node ∈ Finset.range (2 ^ 64) :=
  fun _ _ => Finset.mem_range.mpr (Nat.mod_lt _ (Nat.two_pow_pos 64))

/-- **The loop runs for ever** exactly when no node of the walk stops it. -/
theorem uefiDevpathSize_diverged_iff (below : device < 2 ^ 64) :
    uefiDevpathSize device heap = .error .diverged heap ↔
      ∀ k, ¬ StopsWalk heap.mem ((uefiDevpathGetNext heap.mem)^[k] device) := by
  have decides : (∃ node, walkUntil (StopsWalk heap.mem) (uefiDevpathGetNext heap.mem) (2 ^ 64)
      device = some node) ↔ ∃ k, StopsWalk heap.mem ((uefiDevpathGetNext heap.mem)^[k] device) :=
    walkUntil_isSome_iff (uefiDevpathGetNext_mem heap.mem) (Finset.mem_range.mpr below)
      (Nat.le_of_eq (Finset.card_range _))
  rw [← not_exists, ← decides, uefiDevpathSize, bind_eq_error, devpathLoop_eq]
  cases walk : walkUntil (StopsWalk heap.mem) (uefiDevpathGetNext heap.mem) (2 ^ 64) device with
  | none => simp
  | some node =>
      cases node with
      | zero => simp
      | succ last => simp [bind_run]

/-! ## Accepted paths -/

/-- The loop of `uefi_devpath_size` ends for an accepted pointer: it returns, each of its steps
climbs by a header at least, and it reaches a node that ends an entire path. -/
structure Walkable (heap : Heap) (device : Nat) : Prop where
  returns : ∃ size, uefiDevpathSize device heap = .ok size heap
  climbs : ∃ turns last, WalksTo heap.mem device turns last ∧ EndsEntire heap.mem last

/-- Memory starts with a list of nodes and a node that ends an entire path, below the end of the
address space. -/
def StartsWithPath (mem : Memory) (device : Nat) : Prop :=
  ∃ path : DevicePath, device + path.nodesSize < 2 ^ 64 ∧
    mem.bytes device path.nodesSize = devicePathCode.records path ∧
    EndsEntire mem (device + path.nodesSize)

/-- **Accepted device paths can be walked** exactly when the bytes that they point to are a
device path: the check accepts every other pointer too. -/
theorem accepted_walkable_iff (heap : Heap) (device : Nat) (below : device < 2 ^ 64)
    (accepted : uefiDevpathValid device = true) :
    Walkable heap device ↔ StartsWithPath heap.mem device := by
  have nonnull : device ≠ 0 := of_decide_eq_true accepted
  constructor
  · intro walkable
    obtain ⟨turns, last, walks, ends⟩ := walkable.climbs
    obtain ⟨path, rfl, lastBelow, bytes⟩ := exists_path_of_walksTo below walks
    exact ⟨path, lastBelow, bytes, ends⟩
  · rintro ⟨path, pathBelow, bytes, ends⟩
    have walks := walksTo_of_bytes nonnull pathBelow bytes ends
    have few : path.length < 2 ^ 64 := by
      have turns := walks.ends.lt_card (uefiDevpathGetNext_mem heap.mem)
        (Finset.mem_range.mpr below)
      rwa [Finset.card_range] at turns
    refine ⟨?_, path.length, _, walks, ends⟩
    obtain ⟨last, same⟩ := Nat.exists_eq_succ_of_ne_zero
      (show device + path.nodesSize ≠ 0 by omega)
    have loop : devpathLoop (2 ^ 64) device heap = .ok (device + path.nodesSize) heap := by
      rw [devpathLoop_eq, walkUntil_eq_some_iff.mpr ⟨path.length, few, walks.ends, walks.last⟩,
        same]
    rw [uefiDevpathSize, bind_of_ok loop]
    exact ⟨_, rfl⟩

/-- A heap whose memory is a list of bytes from an address on. -/
def heapOf (address : Nat) (bytes : List UInt8) : Heap :=
  ⟨fun place => bytes.getD (place - address) 0, [], by simp⟩

theorem accepted_walkable_sample :
    Walkable (heapOf 0x1000 [4, 4, 6, 0, 0x62, 0, 0x7F, 0xFF, 4, 0]) 0x1000 := by
  have starts : StartsWithPath
      (heapOf 0x1000 [4, 4, 6, 0, 0x62, 0, 0x7F, 0xFF, 4, 0]).mem 0x1000 :=
    ⟨[⟨4, 4, [0x62, 0], by decide, by decide⟩], by decide +kernel⟩
  exact (accepted_walkable_iff _ 0x1000 (by decide) rfl).mpr starts

/-- A memory of zeros. -/
def zeroHeap : Heap := ⟨fun _ => 0, [], by simp⟩

/-- A node of length zero is accepted and walked for ever. -/
theorem zeroNode_not_walkable :
    uefiDevpathValid 0x1000 = true ∧
    uefiDevpathSize 0x1000 zeroHeap = .error .diverged zeroHeap ∧ ¬ Walkable zeroHeap 0x1000 := by
  have stays : ∀ k, (uefiDevpathGetNext zeroHeap.mem)^[k] 0x1000 = 0x1000 :=
    fun k => Function.iterate_fixed rfl k
  have going : ¬ StopsWalk zeroHeap.mem 0x1000 := by decide
  have diverges : uefiDevpathSize 0x1000 zeroHeap = .error .diverged zeroHeap := by
    refine (uefiDevpathSize_diverged_iff (by decide)).mpr fun k => ?_
    rw [stays]
    exact going
  refine ⟨rfl, diverges, fun walkable => ?_⟩
  obtain ⟨size, returns⟩ := walkable.returns
  rw [diverges] at returns
  cases returns

end VineyardLoader
