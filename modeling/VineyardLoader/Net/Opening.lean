import VineyardLoader.Net.Addresses
import VineyardLoader.Net.Loop
import VineyardLoader.Net.Selection

/-!
# Opening the network interface

`net_open` makes a timer, chooses an interface, fills the pool of transmit buffers, derives the
addresses of the node and gives the interface the table of multicast filters. An interface has room
for a number of filters of its own, and a filter that does not fit is left out without a word.

The table then holds the group of the link-local address and the group of all nodes, in this order,
as far as there is room (`netIp6Init_filters`). So the interface lets through every packet to a
group that the node listens to exactly if it has room for both (`netKernelLoad_hears_iff`). Nothing
that belongs to the transfer or the loop is touched (`OpenedBy.untouched`).
-/

set_option autoImplicit false

namespace VineyardLoader

/-! ## The table of filters -/

/-- The hardware addresses in the table of multicast filters. -/
def filterList (g : NetGlobals) (mem : Memory) : List (List UInt8) :=
  (List.range (mem.loadLE g.mcastFilterCount 4)).map fun index =>
    mem.bytes (g.mcastFilters + index * efiMacAddrSize) 6

namespace NetGlobals

variable (g : NetGlobals)

/-- The count of the filters lies apart from the other globals. -/
theorem mcastFilterCount_apart : ∀ object ∈ [⟨g.llMacAddr, 6⟩, ⟨g.ip6LlAddr, 16⟩,
    ⟨g.snmMacAddr, 6⟩, ⟨g.ip6SnmAddr, 16⟩, ⟨g.mcastFilters, 256⟩],
    Extent.Apart object ⟨g.mcastFilterCount, 4⟩ := by
  have split : List.Pairwise Extent.Apart ([⟨g.llMacAddr, 6⟩, ⟨g.ip6LlAddr, 16⟩,
      ⟨g.snmMacAddr, 6⟩, ⟨g.ip6SnmAddr, 16⟩, ⟨g.mcastFilters, 256⟩] ++
      [⟨g.mcastFilterCount, 4⟩]) := g.apart
  exact fun object member =>
    (List.pairwise_append.mp split).2.2 object member _ (List.mem_singleton_self _)

end NetGlobals

section Table

open TracedMemory

variable {g : NetGlobals} {limit : Nat} {state : TracedMemory} {addr : Memory}

@[simp]
theorem filterList_length (g : NetGlobals) (mem : Memory) :
    (filterList g mem).length = mem.loadLE g.mcastFilterCount 4 := by
  rw [filterList, List.length_map, List.length_range]

/-- An entry behind the others and a count that is one larger add a filter. -/
theorem filterList_write {mem : Memory} {count : Nat}
    (here : mem.loadLE g.mcastFilterCount 4 = count) (below : count < mcastFilterEntries) :
    filterList g ((mem.overwrite (g.mcastFilters + count * efiMacAddrSize) 6 addr).storeLE
      g.mcastFilterCount 4 (count + 1)) = filterList g mem ++ [addr.bytes 0 6] := by
  have apart : g.mcastFilters + 256 ≤ g.mcastFilterCount ∨
      g.mcastFilterCount + 4 ≤ g.mcastFilters :=
    g.mcastFilterCount_apart ⟨g.mcastFilters, 256⟩ (by simp)
  simp only [mcastFilterEntries] at below
  rw [filterList, Memory.loadLE_storeLE, Nat.mod_eq_of_lt (by omega), List.range_succ,
    List.map_append, List.map_singleton, filterList, here]
  simp only [efiMacAddrSize]
  congr 1
  · refine List.map_congr_left fun index member => ?_
    have before := List.mem_range.mp member
    rw [Memory.storeLE, Memory.bytes_overwrite_of_disjoint _ (by omega),
      Memory.bytes_overwrite_of_disjoint _ (by omega)]
  · rw [Memory.storeLE, Memory.bytes_overwrite_of_disjoint _ (by omega), Memory.bytes_overwrite]

/-- **A filter is added at the end of the table**, if there is room. -/
theorem netAddMcastFilter_filters
    (room : (filterList g state.mem).length ≤ min mcastFilterEntries limit) :
    filterList g (netAddMcastFilter g (fun _ => limit) addr state).2.mem =
      (filterList g state.mem ++ [addr.bytes 0 6]).take (min mcastFilterEntries limit) := by
  rw [filterList_length] at room
  rw [netAddMcastFilter]
  split
  · rename_i full
    have all : (filterList g state.mem).length = min mcastFilterEntries limit := by
      rw [filterList_length]
      omega
    rw [← all, List.take_left]
  · rename_i free
    obtain ⟨entries, below⟩ := not_or.mp free
    rw [List.take_of_length_le (by
      rw [List.length_append, List.length_singleton, filterList_length]
      omega)]
    have apart : g.mcastFilters + 256 ≤ g.mcastFilterCount ∨
        g.mcastFilterCount + 4 ≤ g.mcastFilters :=
      g.mcastFilterCount_apart ⟨g.mcastFilters, 256⟩ (by simp)
    have kept : (state.mem.overwrite
        (g.mcastFilters + state.mem.loadLE g.mcastFilterCount 4 * efiMacAddrSize) 6 addr).loadLE
        g.mcastFilterCount 4 = state.mem.loadLE g.mcastFilterCount 4 :=
      state.mem.loadLE_overwrite_of_disjoint (by
        simp only [mcastFilterEntries] at entries
        simp only [efiMacAddrSize]
        omega)
    refine Eq.trans ?_ (filterList_write rfl (Nat.lt_of_not_le entries))
    show filterList g (Memory.storeLE _ g.mcastFilterCount 4 (Memory.loadLE _ _ 4 + 1)) = _
    exact congrArg (fun next => filterList g (Memory.storeLE _ g.mcastFilterCount 4 (next + 1))) kept

/-- Two filters are added to an empty table. -/
theorem netAddMcastFilter_twice {other : Memory} (empty : filterList g state.mem = []) :
    filterList g (netAddMcastFilter g (fun _ => limit) other
        (netAddMcastFilter g (fun _ => limit) addr state).2).2.mem =
      [addr.bytes 0 6, other.bytes 0 6].take (min mcastFilterEntries limit) := by
  have first := @netAddMcastFilter_filters g limit state addr (by
    rw [empty]
    exact Nat.zero_le _)
  rw [empty, List.nil_append] at first
  rw [netAddMcastFilter_filters (by
    rw [first]
    exact List.length_take_le _ _), first]
  cases min mcastFilterEntries limit with
  | zero => rfl
  | succ room => cases room <;> rfl

end Table

/-! ## The two groups -/

/-- The globals as the program starts: there is no filter yet, and the constant with the group of all
nodes lies apart from everything that the derivation writes. -/
structure GlobalsAtStart (g : NetGlobals) (mem : Memory) : Prop where
  noFilters : mem.bytes g.mcastFilterCount 4 = [0, 0, 0, 0]
  allNodes : mem.bytes g.ip6AllNodes 16 = ip6AllNodes.bytes 0 16
  constant : ∀ object ∈ [⟨g.llMacAddr, 6⟩, ⟨g.ip6LlAddr, 16⟩, ⟨g.snmMacAddr, 6⟩,
    ⟨g.ip6SnmAddr, 16⟩, ⟨g.ip6LlAddr + 2 * 16, 6⟩], Extent.Apart ⟨g.ip6AllNodes, 16⟩ object

section Groups

open TracedMemory

variable {g : NetGlobals} {mem mac : Memory} {limit : Nat}

/-- What is written before the filters are added, beside the six bytes of the `memset`. -/
def NetGlobals.Addresses (g : NetGlobals) (address : Nat) : Prop :=
  ∃ object ∈ [⟨g.llMacAddr, 6⟩, ⟨g.ip6LlAddr, 16⟩, ⟨g.snmMacAddr, 6⟩, ⟨g.ip6SnmAddr, 16⟩],
    Extent.Contains object address

theorem withSnmMacAddr_changes (g : NetGlobals) (mac : Memory) (state : TracedMemory) :
    Changes g.Addresses (cleared g.ip6LlAddr (state.put g.llMacAddr 6 mac))
      (withSnmMacAddr g mac state) :=
  (((netIp6LlAddrFromMac_changes _ _ _).mono fun _ inside => ⟨_, by simp, inside⟩).trans
    ((netIp6SnmAddrFromMac_changes _ _ _).mono fun _ inside => ⟨_, by simp, inside⟩)).trans
      ((netIp6MulticastFromIp6At_changes _ _ _).mono fun _ inside => ⟨_, by simp, inside⟩)

/-- A byte apart from the addresses is what it was, or the `memset` has cleared it. -/
theorem withSnmMacAddr_byte (g : NetGlobals) (mac : Memory) (state : TracedMemory) {address : Nat}
    (apart : ¬ g.Addresses address) :
    (withSnmMacAddr g mac state).mem address =
      if (⟨g.ip6LlAddr + 2 * 16, 6⟩ : Extent).Contains address then 0 else state.mem address := by
  rw [(withSnmMacAddr_changes g mac state).outside address apart]
  refine (show _ = ite _ _ _ from rfl).trans ?_
  refine if_congr Iff.rfl rfl (put_outside _ ?_)
  by_contra within
  exact apart ⟨⟨g.llMacAddr, 6⟩, by simp, show g.llMacAddr ≤ address by omega,
    show address < g.llMacAddr + 6 by omega⟩

theorem GlobalsAtStart.noFilters_later (start : GlobalsAtStart g mem) :
    filterList g (withSnmMacAddr g mac ⟨mem, []⟩).mem = [] := by
  have zero : (withSnmMacAddr g mac ⟨mem, []⟩).mem.loadLE g.mcastFilterCount 4 = 0 := by
    refine Memory.loadLE_zero fun index inside => ?_
    have apart : ¬ g.Addresses (g.mcastFilterCount + index) := by
      rintro ⟨object, member, contains⟩
      exact (g.mcastFilterCount_apart object (by
        simp only [List.mem_cons, List.not_mem_nil, or_false] at member ⊢
        tauto)).symm.not_contains (Extent.contains_add inside) contains
    rw [withSnmMacAddr_byte g mac _ apart, ite_eq_left_iff]
    intro
    have zeros : mem.bytes g.mcastFilterCount 4 = Memory.bytes (fun _ => 0) 0 4 := start.noFilters
    exact Memory.eq_of_bytes_eq zeros inside
  rw [filterList, zero]
  rfl

theorem GlobalsAtStart.allNodes_later (start : GlobalsAtStart g mem) {index : Nat} (inside : index < 16) :
    (withSnmMacAddr g mac ⟨mem, []⟩).mem (g.ip6AllNodes + index) = ip6AllNodes index := by
  have here : (⟨g.ip6AllNodes, 16⟩ : Extent).Contains (g.ip6AllNodes + index) :=
    Extent.contains_add inside
  have apart : ¬ g.Addresses (g.ip6AllNodes + index) := by
    rintro ⟨object, member, contains⟩
    exact (start.constant object (by
      simp only [List.mem_cons, List.not_mem_nil, or_false] at member ⊢
      tauto)).not_contains here contains
  have missed := (start.constant ⟨g.ip6LlAddr + 2 * 16, 6⟩ (by simp)).not_contains here
  rw [withSnmMacAddr_byte g mac _ apart, if_neg missed]
  have same := Memory.eq_of_bytes_eq start.allNodes inside
  rwa [Nat.zero_add] at same

/-- The hardware address of the group of all nodes. -/
def allNodesHardwareAddress : List UInt8 := [0x33, 0x33, 0, 0, 0, 1]

theorem netIp6Init_eq (g : NetGlobals) (maxMCastFilterCount : Memory → Nat) (mac : Memory)
    (state : TracedMemory) :
    netIp6Init g maxMCastFilterCount mac state =
      (netAddMcastFilter g maxMCastFilterCount
        (netIp6MulticastFromIp6 fun index =>
          (withSnmMacAddr g mac state).mem (g.ip6AllNodes + index))
        (netAddMcastFilter g maxMCastFilterCount
          (fun index => (withSnmMacAddr g mac state).mem (g.snmMacAddr + index))
          (withSnmMacAddr g mac state)).2).2 := rfl

/-- **The filters in the end** are the group of the link-local address and the group of all nodes, as
far as the interface has room. -/
theorem netIp6Init_filters (start : GlobalsAtStart g mem) :
    filterList g (netIp6Init g (fun _ => limit) mac ⟨mem, []⟩).mem =
      [(netIp6Init g (fun _ => limit) mac ⟨mem, []⟩).mem.bytes g.snmMacAddr 6,
        allNodesHardwareAddress].take (min mcastFilterEntries limit) := by
  have own : Memory.bytes (fun index =>
      (withSnmMacAddr g mac ⟨mem, []⟩).mem (g.snmMacAddr + index)) 0 6 =
      (netIp6Init g (fun _ => limit) mac ⟨mem, []⟩).mem.bytes g.snmMacAddr 6 := by
    rw [bytes_shift]
    exact ((netIp6Init_changes_filterTable g mac _ _).bytes_eq fun index inside =>
      g.snmMacAddr_not_filterTable inside).symm
  have all : (netIp6MulticastFromIp6 fun index =>
      (withSnmMacAddr g mac ⟨mem, []⟩).mem (g.ip6AllNodes + index)).bytes 0 6 =
        allNodesHardwareAddress := by
    have same : (netIp6MulticastFromIp6 fun index =>
        (withSnmMacAddr g mac ⟨mem, []⟩).mem (g.ip6AllNodes + index)).bytes 0 6 =
        (netIp6MulticastFromIp6 ip6AllNodes).bytes 0 6 := by
      refine Memory.bytes_congr fun index inside => ?_
      have below : 0 + index + 10 < 16 := by omega
      exact if_congr Iff.rfl rfl (start.allNodes_later below)
    rw [same]
    decide
  rw [← own, netIp6Init_eq, netAddMcastFilter_twice start.noFilters_later, all]

theorem first_of_bytes {memory : Memory} {start size : Nat} {first : UInt8} {rest : List UInt8}
    (same : memory.bytes start (size + 1) = first :: rest) : memory start = first := by
  rw [Nat.add_comm, Memory.bytes_add] at same
  exact (List.cons.inj same).1

/-- What the derived globals hold, as far as the filters depend on it. -/
structure GroupsIn (g : NetGlobals) (limit : Nat) (globals : Memory) : Prop where
  filters : filterList g globals = [groupHardwareAddress (globals.bytes g.ip6SnmAddr 16),
    allNodesHardwareAddress].take (min mcastFilterEntries limit)
  unicast : globals g.ip6LlAddr = 0xFE
  group : ∃ low, globals.bytes g.ip6SnmAddr 16 =
    [0xFF, 0x02, 0, 0, 0, 0, 0, 0, 0, 0, 0, 0x01, 0xFF] ++ low

theorem netIp6Init_groups (start : GlobalsAtStart g mem) (limit : Nat) (mac : Memory) :
    GroupsIn g limit (netIp6Init g (fun _ => limit) mac ⟨mem, []⟩).mem where
  filters := by rw [netIp6Init_filters start, netIp6Init_snmMacAddr]
  unicast := by
    have own := netIp6Init_ip6LlAddr g mac ⟨mem, []⟩ fun _ => limit
    rw [List.append_assoc, List.cons_append] at own
    exact first_of_bytes own
  group := ⟨_, netIp6Init_ip6SnmAddr g mac ⟨mem, []⟩ fun _ => limit⟩

end Groups

/-! ## The program -/

/-- What the `Mode` of an interface says. -/
structure NicMode where
  currentAddress : Memory
  maxMCastFilterCount : Nat

/-- The answers of the firmware to the calls of `net_open`. -/
structure OpenFirmware where
  createEvent : Bool
  nics : NicFirmware
  mode : Nat → NicMode
  allocatePages : Option Nat
  /-- Whether `ReceiveFilters` takes the hardware addresses in the table. -/
  receiveFilters : List (List UInt8) → Bool

/-- The network code has the addresses that the globals hold. -/
def NetState.withAddresses (s : NetState) (g : NetGlobals) (mem : Memory) : NetState :=
  { s with
    llMacAddr := fun index => mem (g.llMacAddr + index)
    ip6LlAddr := fun index => mem (g.ip6LlAddr + index)
    ip6SnmAddr := fun index => mem (g.ip6SnmAddr + index) }

section Program

variable (fw : OpenFirmware) (g : NetGlobals) (mem : Memory)

/-- The globals after `net_ip6_init` for an interface. -/
def openGlobals (nic : Nat) : Memory :=
  (netIp6Init g (fun _ => (fw.mode nic).maxMCastFilterCount) (fw.mode nic).currentAddress
    ⟨mem, []⟩).mem

/-- `net_open`, with the globals for the addresses in a memory. It returns the filters that the
interface has taken. -/
def netOpen : Poll (List (List UInt8)) := do
  if !fw.createEvent then throw .exit
  modify fun s => { s with netTimer := true }
  match netGetProtocol fw.nics with
  | .error reason => throw reason
  | .ok selection =>
      if selection.status.isError then throw .exit
      match selection.snp with
      | none => throw .undefined
      | some nic =>
          modify fun s => { s with snp := true }
          liftNet (netBufpoolInit fw.allocatePages)
          modify fun s => { s with net := s.net.withAddresses g (openGlobals fw g mem nic) }
          let filters := filterList g (openGlobals fw g mem nic)
          if !fw.receiveFilters filters then throw .exit
          return filters

/-- `net_kernel_load`, for as many turns of the loop as there are answers of the firmware. The calls
of `net_close` change nothing here, and their statuses are not looked at. -/
def netKernelLoad (turns : List PollFirmware) : Poll Bool := do
  let _ ← netOpen fw g mem
  netPollLoop turns

end Program

section Opened

variable {fw : OpenFirmware} {g : NetGlobals} {mem : Memory} {s t : PollState}
  {filters : List (List UInt8)}

/-- What `net_open` has done when it returns, with an interface and the globals it has derived. -/
structure OpenedBy (fw : OpenFirmware) (g : NetGlobals) (s : PollState) (nic : Nat)
    (globals : Memory) (filters : List (List UInt8)) (t : PollState) : Prop where
  selected : ∃ selection, netGetProtocol fw.nics = .ok selection ∧ selection.snp = some nic
  filters : filters = filterList g globals
  pooled : ∃ net, netBufpoolInit fw.allocatePages s.net = .ok () net ∧
    t = { s with net := net.withAddresses g globals, snp := true, netTimer := true }

theorem netOpen_ok (run : netOpen fw g mem s = .ok filters t) :
    ∃ nic, OpenedBy fw g s nic (openGlobals fw g mem nic) filters t := by
  unfold netOpen at run
  obtain ⟨-, run⟩ := check_eq_ok.mp run
  rw [bind_of_ok (modify_run _ _)] at run
  cases selected : netGetProtocol fw.nics with
  | error reason =>
      rw [selected] at run
      cases run
  | ok selection =>
      rw [selected] at run
      obtain ⟨-, run⟩ := check_eq_ok.mp run
      cases chosen : selection.snp with
      | none =>
          rw [chosen] at run
          cases run
      | some nic =>
          rw [chosen] at run
          simp only [bind_of_ok (modify_run _ _)] at run
          obtain ⟨⟨⟩, middle, lifted, run⟩ := bind_eq_ok.mp run
          rw [bind_of_ok (modify_run _ _)] at run
          obtain ⟨-, run⟩ := check_eq_ok.mp run
          unfold liftNet at lifted
          cases pooled : netBufpoolInit fw.allocatePages s.net with
          | error reason net =>
              rw [pooled] at lifted
              cases lifted
          | ok value net =>
              rw [pooled] at lifted
              cases lifted
              obtain ⟨value, state⟩ := EStateM.Result.ok.inj run
              exact ⟨nic, ⟨selection, selected, chosen⟩, value.symm, net, pooled, state.symm⟩

theorem netBufpoolInit_receiver (pages : Option Nat) :
    Keeps NetState.receiver (netBufpoolInit pages) := by
  unfold netBufpoolInit
  cases pages with
  | none => exact Keeps.throw _
  | some base =>
      refine Keeps.bind (Keeps.modify fun _ => rfl) fun _ => Keeps.repeatTimes (fun index => ?_) _
      exact (netBufpoolReturn_keeps _).coarser fun _ _ same => by
        have parts := congrArg NetState.receiver same
        exact parts

variable {nic : Nat} {globals : Memory}

/-- Opening the interface does not touch the transfer, the two flags or the volume. -/
theorem OpenedBy.untouched (opened : OpenedBy fw g s nic globals filters t) :
    t.net.receiver = s.net.receiver ∧ t.snp = true := by
  obtain ⟨net, pooled, rfl⟩ := opened.pooled
  have kept : net.receiver = s.net.receiver := (netBufpoolInit_receiver fw.allocatePages).ok pooled
  exact ⟨kept, rfl⟩

theorem OpenedBy.station (opened : OpenedBy fw g s nic globals filters t) :
    t.net.station = (fun index => globals (g.llMacAddr + index),
      fun index => globals (g.ip6LlAddr + index), fun index => globals (g.ip6SnmAddr + index)) := by
  obtain ⟨net, pooled, rfl⟩ := opened.pooled
  rfl

/-! ## What the interface lets through -/

/-- A frame with a packet to a group, addressed to the hardware address of the group. -/
def ToGroup (frame : Memory) : Prop :=
  frame 38 = 0xFF ∧ frame.bytes 0 6 = groupHardwareAddress (frame.bytes 38 16)

/-- Every packet to a group that the node takes passes the filters of its interface. -/
def HearsGroups (s : NetState) (filters : List (List UInt8)) : Prop :=
  ∀ frame len, Accepts s frame len → ToGroup frame → frame.bytes 0 6 ∈ filters

/-- A frame without a payload to the group of all nodes. -/
def allNodesFrame : Memory := fun index =>
  (allNodesHardwareAddress ++ [2, 2, 2, 2, 2, 2, 0x86, 0xDD, 0x60, 0, 0, 0, 0, 0, 59, 255] ++
    List.replicate 16 0 ++ ip6AllNodes.bytes 0 16).getD index 0

theorem allNodesFrame_accepted (s : NetState) : Accepts s allNodesFrame 54 :=
  ⟨by decide, by decide +kernel, by decide +kernel, by decide +kernel, .inr (.inr (by decide +kernel))⟩

theorem allNodesFrame_toGroup : ToGroup allNodesFrame := ⟨by decide +kernel, by decide +kernel⟩

/-- What the filters have to do with the addresses of a node. -/
structure FiltersFor (node : NetState) (limit : Nat) (filters : List (List UInt8)) : Prop where
  filters : filters = [groupHardwareAddress (node.ip6SnmAddr.bytes 0 16),
    allNodesHardwareAddress].take (min mcastFilterEntries limit)
  unicast : node.ip6LlAddr 0 = 0xFE
  group : ∃ low, node.ip6SnmAddr.bytes 0 16 =
    [0xFF, 0x02, 0, 0, 0, 0, 0, 0, 0, 0, 0, 0x01, 0xFF] ++ low

theorem FiltersFor.congr {node later : NetState} {limit : Nat} (has : FiltersFor node limit filters)
    (same : later.station = node.station) : FiltersFor later limit filters := by
  have link : later.ip6LlAddr = node.ip6LlAddr := congrArg (fun station => station.2.1) same
  have group : later.ip6SnmAddr = node.ip6SnmAddr := congrArg (fun station => station.2.2) same
  exact ⟨group ▸ has.filters, link ▸ has.unicast, group ▸ has.group⟩

/-- The filters that an opened interface has are those for its node. -/
theorem OpenedBy.filtersFor {limit : Nat} (opened : OpenedBy fw g s nic globals filters t)
    (groups : GroupsIn g limit globals) : FiltersFor t.net limit filters := by
  have link : t.net.ip6LlAddr = fun index => globals (g.ip6LlAddr + index) :=
    congrArg (fun station => station.2.1) opened.station
  have group : t.net.ip6SnmAddr = fun index => globals (g.ip6SnmAddr + index) :=
    congrArg (fun station => station.2.2) opened.station
  refine ⟨?_, ?_, ?_⟩
  · rw [opened.filters, groups.filters, group, bytes_shift]
  · rw [link]
    exact groups.unicast
  · rw [group, bytes_shift]
    exact groups.group

/-- The interface has to have room for both groups. -/
theorem FiltersFor.hears_iff {node : NetState} {limit : Nat} (has : FiltersFor node limit filters) :
    HearsGroups node filters ↔ 2 ≤ limit := by
  obtain ⟨low, group⟩ := has.group
  constructor
  · intro hears
    by_contra small
    have member := hears allNodesFrame 54 (allNodesFrame_accepted node) allNodesFrame_toGroup
    have address : allNodesFrame.bytes 0 6 = allNodesHardwareAddress := by decide +kernel
    have short : min mcastFilterEntries limit ≤ 1 := by omega
    rw [has.filters, address, group] at member
    have first := List.mem_singleton.mp (List.take_subset_take_left _ short member)
    exact absurd (congrArg (fun list => list[2]?) first) (by
      simp [allNodesHardwareAddress, groupHardwareAddress])
  · rintro room frame len ⟨-, -, -, -, mine⟩ ⟨multicast, addressed⟩
    have both : 2 ≤ min mcastFilterEntries limit := Nat.le_min.mpr ⟨by decide, room⟩
    rw [has.filters, List.take_of_length_le both, addressed]
    simp only [sameBytes_iff, bytes_shift] at mine
    rcases mine with own | solicited | all
    · have byte : node.ip6LlAddr (0 + 0) = frame (38 + 0) :=
        Memory.eq_of_bytes_eq own (by decide)
      have same : (0xFE : UInt8) = 0xFF := has.unicast.symm.trans (byte.trans multicast)
      exact absurd same (by decide)
    · rw [← solicited]
      exact List.mem_cons_self
    · rw [← all]
      exact List.mem_cons_of_mem _ (List.mem_singleton.mpr (by decide))

theorem netKernelLoad_ok {turns : List PollFirmware} {ended : Bool} {last : PollState}
    (run : netKernelLoad fw g mem turns s = .ok ended last) :
    ∃ filters t, netOpen fw g mem s = .ok filters t ∧ netPollLoop turns t = .ok ended last :=
  bind_eq_ok.mp run

/-- **The node hears its groups** through the whole network boot, whatever arrives, exactly if its
interface has room for two filters. -/
theorem netKernelLoad_hears_iff (turns : List PollFirmware) (ended : Bool) (last : PollState)
    (start : GlobalsAtStart g mem) (run : netKernelLoad fw g mem turns s = .ok ended last) :
    ∃ selection nic filters opened, netGetProtocol fw.nics = .ok selection ∧
      selection.snp = some nic ∧ netOpen fw g mem s = .ok filters opened ∧
      (HearsGroups last.net filters ↔ 2 ≤ (fw.mode nic).maxMCastFilterCount) := by
  obtain ⟨filters, t, opens, loop⟩ := netKernelLoad_ok run
  obtain ⟨nic, opened⟩ := netOpen_ok opens
  obtain ⟨selection, selected, chosen⟩ := opened.selected
  have groups := netIp6Init_groups start (fw.mode nic).maxMCastFilterCount
    (fw.mode nic).currentAddress
  have has := opened.filtersFor groups
  have station := pollRun_station (netPollLoop_run loop).1
  exact ⟨selection, nic, filters, t, selected, chosen, opens, (has.congr station).hears_iff⟩

end Opened

/-! ## An interface -/

/-- The globals at the start, with the constant in its place. -/
def sampleGlobals : Memory := Memory.overwrite (fun _ => 0) 0x2000 16 ip6AllNodes

/-- The second of two interfaces has a link. -/
def sampleOpenFirmware : OpenFirmware where
  createEvent := true
  nics := twoNics pathCd
  mode _ := ⟨sampleMac, 16⟩
  allocatePages := some 0x200000
  receiveFilters _ := true

theorem sampleGlobals_atStart : GlobalsAtStart declaredGlobals sampleGlobals where
  noFilters := by decide +kernel
  allNodes := by decide +kernel
  constant := by decide

theorem netKernelLoad_hears_sample :
    ∃ ended last filters, netKernelLoad sampleOpenFirmware declaredGlobals sampleGlobals
        [samplePollFirmware] samplePollStart = .ok ended last ∧ HearsGroups last.net filters := by
  have runs : returned (netKernelLoad sampleOpenFirmware declaredGlobals sampleGlobals
      [samplePollFirmware] samplePollStart) = true := by decide +kernel
  obtain ⟨ended, last, run⟩ := exists_ok_of_returned runs
  obtain ⟨_, _, filters, _, _, _, _, hears⟩ :=
    netKernelLoad_hears_iff [samplePollFirmware] ended last sampleGlobals_atStart run
  have room : 2 ≤ 16 := by decide
  exact ⟨ended, last, filters, run, hears.mpr room⟩

end VineyardLoader
