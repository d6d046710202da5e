import VineyardLoader.Foundation.Records
import VineyardLoader.Foundation.Walks
import VineyardLoader.Uefi.Heap

/-!
# Device paths

A device path is a chain of nodes. A node has a type, a subtype, its own length in 16 bits and
data, and the chain is closed by the node of the type and subtype that end the entire path.

`uefi_devpath_size` walks the chain by the stored lengths. On memory that holds a path it ends at
the closing node and gives the length of the chain (`Heap.HoldsPath.uefiDevpathSize_run`).
-/

set_option autoImplicit false

namespace VineyardLoader

/-! ## Nodes in memory -/

def devicePathEnd : UInt8 := 0x7F
def devicePathEntireEnd : UInt8 := 0xFF
def devicePathMedia : UInt8 := 0x04

/-- `sizeof(efi_device_path_protocol)`: a type, a subtype and a length. -/
def devicePathHeaderSize : Nat := 4

/-- `empty_devpath`. -/
def emptyDevpath : List UInt8 := [devicePathEnd, devicePathEntireEnd, 4, 0]

/-- `uefi_devpath_get_node_length`. -/
def uefiDevpathGetNodeLength (mem : Memory) (node : Nat) : Nat := mem.loadLE (node + 2) 2

/-- `uefi_devpath_get_next`. -/
def uefiDevpathGetNext (mem : Memory) (node : Nat) : Nat :=
  (node + uefiDevpathGetNodeLength mem node) % 2 ^ 64

/-- `uefi_devpath_valid`, which only knows the null pointer. -/
def uefiDevpathValid (device : Nat) : Bool := device ≠ 0

/-- `uefi_devpath_is_end`. -/
def uefiDevpathIsEnd (node : Nat) : Pooled Bool := do
  if node = 0 then throw (.panic "uefi_devpath_is_end: error")
  let heap ← get
  if heap.mem node = devicePathEnd ∧ heap.mem (node + 1) = devicePathEntireEnd then return true
  return false

/-- The loop of `uefi_devpath_size`. -/
def devpathLoop : Nat → Nat → Pooled Nat
  | 0, _ => throw .diverged
  | fuel + 1, node => do
      if ← uefiDevpathIsEnd node then return node
      let heap ← get
      devpathLoop fuel (uefiDevpathGetNext heap.mem node)

/-- `uefi_devpath_size`. There are `2 ^ 64` addresses. -/
def uefiDevpathSize (device : Nat) : Pooled Nat := do
  let node ← devpathLoop (2 ^ 64) device
  let heap ← get
  return (node + 2 ^ 64 - device + uefiDevpathGetNodeLength heap.mem node) % 2 ^ 64

/-- `uefi_devpath_append`. -/
def uefiDevpathAppend (fw : PoolFirmware) (first second : Nat) : Pooled Nat := do
  if !uefiDevpathValid first || !uefiDevpathValid second then
    throw (.panic "uefi_devpath_append: invalid device paths")
  let firstSize ← uefiDevpathSize first
  let secondSize ← uefiDevpathSize second
  let size := (firstSize + secondSize) % 2 ^ 64
  let devpath ← poolAllocateOrExit fw size
  let emptyNode := (devpath + firstSize + 2 ^ 64 - devicePathHeaderSize) % 2 ^ 64
  memcpy ⟨devpath, size⟩ devpath first firstSize
  memcpy ⟨devpath, size⟩ emptyNode second secondSize
  return devpath

/-! ## The walk -/

/-- The node closes its path. -/
def EndsEntire (mem : Memory) (node : Nat) : Prop :=
  mem node = devicePathEnd ∧ mem (node + 1) = devicePathEntireEnd

instance (mem : Memory) (node : Nat) : Decidable (EndsEntire mem node) :=
  inferInstanceAs (Decidable (_ ∧ _))

/-- The nodes at which the loop of `uefi_devpath_size` stops: one that closes a path, and the
null pointer. -/
def StopsWalk (mem : Memory) (node : Nat) : Prop := node = 0 ∨ EndsEntire mem node

instance (mem : Memory) (node : Nat) : Decidable (StopsWalk mem node) :=
  inferInstanceAs (Decidable (_ ∨ _))

variable {heap : Heap} {node : Nat}

theorem uefiDevpathIsEnd_run (nonnull : node ≠ 0) :
    uefiDevpathIsEnd node heap = .ok (decide (EndsEntire heap.mem node)) heap := by
  rw [uefiDevpathIsEnd, if_neg nonnull]
  by_cases ends : EndsEntire heap.mem node
  · simp only [ends, decide_true]
    have both : heap.mem node = devicePathEnd ∧ heap.mem (node + 1) = devicePathEntireEnd := ends
    rw [bind_of_ok (get_run _), if_pos both]
    rfl
  · simp only [ends, decide_false]
    have neither : ¬ (heap.mem node = devicePathEnd ∧ heap.mem (node + 1) = devicePathEntireEnd) :=
      ends
    rw [bind_of_ok (get_run _), if_neg neither]
    rfl

/-- The loop is a walk along the stored lengths, which changes nothing. -/
theorem devpathLoop_eq (fuel : Nat) :
    ∀ node, devpathLoop fuel node heap =
      match walkUntil (StopsWalk heap.mem) (uefiDevpathGetNext heap.mem) fuel node with
      | none => .error .diverged heap
      | some 0 => .error (.panic "uefi_devpath_is_end: error") heap
      | some (last + 1) => .ok (last + 1) heap := by
  induction fuel with
  | zero => exact fun node => rfl
  | succ fuel ih =>
      intro node
      rw [devpathLoop, walkUntil]
      by_cases null : node = 0
      · subst null
        rw [if_pos (.inl rfl)]
        rfl
      rw [bind_of_ok (uefiDevpathIsEnd_run null)]
      obtain ⟨last, rfl⟩ := Nat.exists_eq_succ_of_ne_zero null
      by_cases ends : EndsEntire heap.mem (last + 1)
      · rw [if_pos (show StopsWalk heap.mem (last + 1) from .inr ends)]
        simp only [ends, decide_true]
        rfl
      · rw [if_neg (show ¬ StopsWalk heap.mem (last + 1) from not_or.mpr ⟨null, ends⟩), ← ih]
        simp only [ends, decide_false]
        rfl

/-! ## Paths -/

/-- A node that does not close a path. Its length fits in 16 bits. -/
structure DevicePathNode where
  type : UInt8
  subType : UInt8
  data : List UInt8
  small : data.length + devicePathHeaderSize < 2 ^ 16
  inner : ¬ (type = devicePathEnd ∧ subType = devicePathEntireEnd)

namespace DevicePathNode

/-- The length that the node stores. -/
def length (node : DevicePathNode) : Nat := node.data.length + devicePathHeaderSize

/-- The bytes of a node. -/
def encode (node : DevicePathNode) : List UInt8 :=
  [node.type, node.subType, UInt8.ofNat node.length, UInt8.ofNat (node.length / 256)] ++ node.data

@[simp]
theorem encode_length (node : DevicePathNode) : node.encode.length = node.length := by
  simp [encode, length, devicePathHeaderSize]

theorem four_le_length (node : DevicePathNode) : 4 ≤ node.length := Nat.le_add_left _ _

/-- The two bytes of the length give it back. -/
theorem length_bytes (node : DevicePathNode) :
    (UInt8.ofNat node.length).toNat + 256 * (UInt8.ofNat (node.length / 256)).toNat =
      node.length := by
  have small : node.length < 2 ^ 16 := node.small
  simp only [UInt8.toNat_ofNat']
  omega

/-- A node is known from the start of its bytes. -/
theorem encode_cancel {first second : DevicePathNode} {rest other : List UInt8}
    (same : first.encode ++ rest = second.encode ++ other) : first = second ∧ rest = other := by
  obtain ⟨type, subType, data, small, inner⟩ := first
  obtain ⟨otherType, otherSubType, otherData, otherSmall, otherInner⟩ := second
  simp only [encode, List.cons_append, List.nil_append, List.cons.injEq] at same
  obtain ⟨rfl, rfl, low, high, tails⟩ := same
  have lengths := length_bytes ⟨type, subType, data, small, inner⟩
  rw [low, high, length_bytes] at lengths
  have even : otherData.length = data.length := Nat.add_right_cancel lengths
  obtain ⟨rfl, rfl⟩ := List.append_inj tails even.symm
  exact ⟨rfl, rfl⟩

end DevicePathNode

/-- The code of device paths: nodes, closed by `empty_devpath`. -/
def devicePathCode : RecordCode UInt8 DevicePathNode where
  encode := DevicePathNode.encode
  stop := emptyDevpath
  cancel := DevicePathNode.encode_cancel
  apart {record _ _} same := by
    simp only [DevicePathNode.encode, emptyDevpath, List.cons_append, List.nil_append,
      List.cons.injEq] at same
    exact record.inner ⟨same.1, same.2.1⟩

/-- A device path: its nodes before the closing one. -/
abbrev DevicePath := List DevicePathNode

/-- The size of a path, with the closing node. -/
def DevicePath.size (path : DevicePath) : Nat := (devicePathCode.chain path).length

/-- The size of the nodes of a path. -/
def DevicePath.nodesSize (path : DevicePath) : Nat := (devicePathCode.records path).length

namespace DevicePath

variable (path other : DevicePath)

theorem size_eq : path.size = path.nodesSize + 4 := devicePathCode.chain_length path

theorem nodesSize_cons (node : DevicePathNode) :
    nodesSize (node :: path) = node.length + path.nodesSize := by
  rw [nodesSize, RecordCode.records_cons, List.length_append]
  exact congrArg (· + _) node.encode_length

/-- Joined paths have one closing node. -/
theorem size_append : size (path ++ other) + 4 = path.size + other.size :=
  devicePathCode.chain_append_length path other

/-- A path has fewer nodes than bytes. -/
theorem length_lt_size : path.length < path.size := by
  rw [size_eq]
  induction path with
  | nil => exact Nat.succ_pos _
  | cons node path ih =>
      have four := node.four_le_length
      rw [nodesSize_cons, List.length_cons]
      omega

end DevicePath

/-! ## Paths in memory -/

section Memory

variable {mem : Memory} {address : Nat}

/-- What the four bytes of a header say. -/
theorem header_of_bytes {type subType low high : UInt8}
    (holds : mem.bytes address 4 = [type, subType, low, high]) :
    mem address = type ∧ mem (address + 1) = subType ∧
      uefiDevpathGetNodeLength mem address = low.toNat + 256 * high.toNat := by
  have list : mem.bytes address 4 =
      [mem address, mem (address + 1), mem (address + 2), mem (address + 3)] := rfl
  rw [list] at holds
  simp only [List.cons.injEq, and_true] at holds
  obtain ⟨rfl, rfl, rfl, rfl⟩ := holds
  exact ⟨rfl, rfl, Memory.loadLE_two mem _⟩

/-- What the header of a node in memory says. -/
theorem nodeHeader_of_bytes {node : DevicePathNode}
    (holds : mem.bytes address node.length = node.encode) :
    mem address = node.type ∧ mem (address + 1) = node.subType ∧
      uefiDevpathGetNodeLength mem address = node.length := by
  rw [DevicePathNode.length, Nat.add_comm, devicePathHeaderSize, Memory.bytes_add,
    DevicePathNode.encode] at holds
  obtain ⟨type, subType, length⟩ := header_of_bytes (List.append_inj holds rfl).1
  exact ⟨type, subType, length.trans node.length_bytes⟩

/-- A walk that ends at a place and climbs by a header at least with every turn. -/
structure WalksTo (mem : Memory) (start turns last : Nat) : Prop where
  ends : EndsAt (StopsWalk mem) (uefiDevpathGetNext mem) start turns
  last : (uefiDevpathGetNext mem)^[turns] start = last
  climbs : ∀ k, k < turns → (uefiDevpathGetNext mem)^[k] start + devicePathHeaderSize ≤
    (uefiDevpathGetNext mem)^[k + 1] start

/-- **The walk along a path** goes from node to node to the closing one. -/
theorem walksTo_of_bytes {path : DevicePath} :
    ∀ {address : Nat}, address ≠ 0 → address + path.nodesSize < 2 ^ 64 →
      mem.bytes address path.nodesSize = devicePathCode.records path →
      EndsEntire mem (address + path.nodesSize) →
      WalksTo mem address path.length (address + path.nodesSize) := by
  induction path with
  | nil =>
      intro address nonnull below holds ends
      exact ⟨.zero (.inr ends), rfl, fun k less => absurd less (Nat.not_lt_zero k)⟩
  | cons node path ih =>
      intro address nonnull below holds ends
      have four := node.four_le_length
      rw [DevicePath.nodesSize_cons] at below holds ends ⊢
      rw [Memory.bytes_add, RecordCode.records_cons] at holds
      obtain ⟨head, tail⟩ := List.append_inj holds
        ((mem.bytes_length _ _).trans node.encode_length.symm)
      obtain ⟨type, subType, length⟩ := nodeHeader_of_bytes head
      have next : uefiDevpathGetNext mem address = address + node.length := by
        rw [uefiDevpathGetNext, length, Nat.mod_eq_of_lt (by omega)]
      rw [← Nat.add_assoc] at below ends ⊢
      have rest := ih (by omega) below tail ends
      have going : ¬ StopsWalk mem address := by
        rintro (null | closes)
        · exact nonnull null
        · exact node.inner ⟨type ▸ closes.1, subType ▸ closes.2⟩
      rw [← next] at rest
      refine ⟨.succ going rest.ends, by rw [← next]; exact rest.last, fun k less => ?_⟩
      cases k with
      | zero =>
          show address + 4 ≤ uefiDevpathGetNext mem address
          rw [next]
          omega
      | succ k => exact rest.climbs k (Nat.lt_of_succ_lt_succ less)

end Memory

/-- The heap holds a path at an address, inside an object in use. -/
structure Heap.HoldsPath (heap : Heap) (address : Nat) (path : DevicePath) : Prop where
  nonnull : address ≠ 0
  object : ∃ extent ∈ heap.inUse, extent.start ≤ address ∧
    address + path.size ≤ extent.start + extent.size
  bytes : heap.mem.bytes address path.size = devicePathCode.chain path

namespace Heap.HoldsPath

variable {address : Nat} {path : DevicePath} (holds : heap.HoldsPath address path)
include holds

theorem below : address + path.size ≤ physicalEnd := by
  obtain ⟨extent, member, -, upper⟩ := holds.object
  exact upper.trans (heap.below extent member)

/-- The nodes and the closing node of a path in memory. -/
theorem parts : heap.mem.bytes address path.nodesSize = devicePathCode.records path ∧
    heap.mem.bytes (address + path.nodesSize) 4 = emptyDevpath := by
  have bytes := holds.bytes
  rw [DevicePath.size_eq, Memory.bytes_add, RecordCode.chain] at bytes
  exact List.append_inj bytes (heap.mem.bytes_length _ _)

theorem walksTo : WalksTo heap.mem address path.length (address + path.nodesSize) := by
  have below := holds.below
  have enough : physicalEnd < 2 ^ 64 := by decide
  obtain ⟨nodes, closing⟩ := holds.parts
  rw [DevicePath.size_eq] at below
  obtain ⟨type, subType, -⟩ := header_of_bytes closing
  exact walksTo_of_bytes holds.nonnull (by omega) nodes ⟨type, subType⟩

/-- **The size of a path in memory** is the length of its chain. -/
theorem uefiDevpathSize_run : uefiDevpathSize address heap = .ok path.size heap := by
  have walks := holds.walksTo
  have below := holds.below
  have nonnull := holds.nonnull
  have enough : physicalEnd < 2 ^ 64 := by decide
  have short := path.length_lt_size
  have size := path.size_eq
  have length : uefiDevpathGetNodeLength heap.mem (address + path.nodesSize) = 4 :=
    (header_of_bytes holds.parts.2).2.2
  have loop : devpathLoop (2 ^ 64) address heap = .ok (address + path.nodesSize) heap := by
    rw [devpathLoop_eq, walkUntil_eq_some_iff.mpr ⟨path.length, by omega, walks.ends, walks.last⟩]
    obtain ⟨last, same⟩ := Nat.exists_eq_succ_of_ne_zero
      (show address + path.nodesSize ≠ 0 by omega)
    rw [same]
  have difference : (address + path.nodesSize + 2 ^ 64 - address + 4) % 2 ^ 64 = path.size := by
    omega
  rw [uefiDevpathSize, bind_of_ok loop, bind_of_ok (get_run _), length, difference]
  rfl

end Heap.HoldsPath

end VineyardLoader
