import Mathlib.Tactic.Common
import VineyardLoader.Foundation.Footprints
import VineyardLoader.Net.Datagrams

/-!
# Deriving the addresses of the node

From the hardware address of the interface the network code derives its link-local address, the
solicited-node group of that address and the hardware address of the group, and adds the groups
to the table of multicast filters. These are globals, and several routines fill them byte by byte
and with `memset`, so what they hold afterwards depends on every byte being written and on
nothing being written elsewhere. The globals lie in one memory, in places that the linker chose.

The `memset` that should clear the middle of the link-local address takes the pointer to the
address for a pointer to bytes. It clears six bytes that begin two whole addresses further on,
and the middle of the address stays as it was. The addresses are derived, and nothing else is
written, exactly when the middle was clear before and the six bytes lie where no harm is done
(`netIp6Init_derived_iff`).
-/

set_option autoImplicit false

namespace VineyardLoader

/-! ## The addresses -/

/-- The modified EUI-64 identifier of an interface. -/
def interfaceIdentifier : List UInt8 → List UInt8
  | [a, b, c, d, e, f] => [a ^^^ 2, b, c, 0xFF, 0xFE, d, e, f]
  | _ => []

/-- The link-local address of an interface, in fe80::/64. -/
def linkLocalAddress (mac : List UInt8) : List UInt8 :=
  [0xFE, 0x80, 0, 0, 0, 0, 0, 0] ++ interfaceIdentifier mac

/-- The solicited-node group of an address, ff02::1:ff00:0/104 with its low 24 bits. -/
def solicitedNodeGroup (address : List UInt8) : List UInt8 :=
  [0xFF, 0x02, 0, 0, 0, 0, 0, 0, 0, 0, 0, 0x01, 0xFF] ++ address.drop 13

/-- The hardware address of a group, 33:33 with the low 32 bits of the group. -/
def groupHardwareAddress (group : List UInt8) : List UInt8 := [0x33, 0x33] ++ group.drop 12

/-! ## The globals -/

/-- The entries of `mcast_filters`, and the size of an `efi_mac_addr`. -/
def mcastFilterEntries : Nat := 8

def efiMacAddrSize : Nat := 32

/-- Two ranges lie one behind the other. -/
def Extent.Apart (first second : Extent) : Prop :=
  first.start + first.size ≤ second.start ∨ second.start + second.size ≤ first.start

instance : DecidableRel Extent.Apart := fun _ _ => inferInstanceAs (Decidable (_ ∨ _))

/-- Where the linker put the globals. -/
structure NetGlobals where
  llMacAddr : Nat
  ip6LlAddr : Nat
  snmMacAddr : Nat
  ip6SnmAddr : Nat
  ip6AllNodes : Nat
  mcastFilters : Nat
  mcastFilterCount : Nat
  apart : List.Pairwise Extent.Apart [⟨llMacAddr, 6⟩, ⟨ip6LlAddr, 16⟩, ⟨snmMacAddr, 6⟩,
    ⟨ip6SnmAddr, 16⟩, ⟨mcastFilters, 256⟩, ⟨mcastFilterCount, 4⟩]

namespace NetGlobals

variable (g : NetGlobals)

/-- The table of multicast filters: its entries and their count. -/
def FilterTable (address : Nat) : Prop :=
  (⟨g.mcastFilters, 256⟩ : Extent).Contains address ∨
    (⟨g.mcastFilterCount, 4⟩ : Extent).Contains address

/-- The globals that hold derived data. -/
def Derived (address : Nat) : Prop :=
  (⟨g.ip6SnmAddr, 16⟩ : Extent).Contains address ∨ (⟨g.snmMacAddr, 6⟩ : Extent).Contains address ∨
    g.FilterTable address

/-- The globals that may be written. -/
def Permitted (address : Nat) : Prop :=
  (⟨g.llMacAddr, 6⟩ : Extent).Contains address ∨ (⟨g.ip6LlAddr, 16⟩ : Extent).Contains address ∨
    g.Derived address

end NetGlobals

/-! ## The program -/

/-- `net_ip6_multicast_from_ip6`, into an object in memory. -/
def netIp6MulticastFromIp6At (mac ip : Nat) (state : TracedMemory) : TracedMemory :=
  let state := state.assign mac 0x33
  let state := state.assign (mac + 1) 0x33
  let state := state.assign (mac + 2) (state.mem (ip + 12))
  let state := state.assign (mac + 3) (state.mem (ip + 13))
  let state := state.assign (mac + 4) (state.mem (ip + 14))
  state.assign (mac + 5) (state.mem (ip + 15))

/-- `net_ip6_ll_addr_from_mac`. The `memset` goes to `ip + 2`, and `ip` points to addresses of
16 bytes. -/
def netIp6LlAddrFromMac (ip mac : Nat) (state : TracedMemory) : TracedMemory :=
  let state := state.put (ip + 2 * 16) 6 fun _ => 0
  let state := state.assign ip 0xFE
  let state := state.assign (ip + 1) 0x80
  let state := state.assign (ip + 8) (state.mem mac ^^^ 2)
  let state := state.assign (ip + 9) (state.mem (mac + 1))
  let state := state.assign (ip + 10) (state.mem (mac + 2))
  let state := state.assign (ip + 11) 0xFF
  let state := state.assign (ip + 12) 0xFE
  let state := state.assign (ip + 13) (state.mem (mac + 3))
  let state := state.assign (ip + 14) (state.mem (mac + 4))
  state.assign (ip + 15) (state.mem (mac + 5))

/-- `net_ip6_snm_addr_from_mac`. -/
def netIp6SnmAddrFromMac (ip mac : Nat) (state : TracedMemory) : TracedMemory :=
  let state := state.put (ip + 2) 9 fun _ => 0
  let state := state.assign ip 0xFF
  let state := state.assign (ip + 1) 0x02
  let state := state.assign (ip + 11) 0x01
  let state := state.assign (ip + 12) 0xFF
  let state := state.assign (ip + 13) (state.mem (mac + 3))
  let state := state.assign (ip + 14) (state.mem (mac + 4))
  state.assign (ip + 15) (state.mem (mac + 5))

section Program

variable (g : NetGlobals) (maxMCastFilterCount : Memory → Nat)

/-- `net_add_mcast_filter`. The limit of the interface is read from memory. -/
def netAddMcastFilter (addr : Memory) (state : TracedMemory) : EfiStatus × TracedMemory :=
  let count := state.mem.loadLE g.mcastFilterCount 4
  if mcastFilterEntries ≤ count ∨ maxMCastFilterCount state.mem ≤ count then (.error 2, state)
  else
    let state := state.put (g.mcastFilters + count * efiMacAddrSize) 6 addr
    let next := state.mem.loadLE g.mcastFilterCount 4 + 1
    (.success, state.put g.mcastFilterCount 4 fun index => UInt8.ofNat (next / 256 ^ index))

/-- `net_ip6_init`. The hardware address of the group of all nodes is a local. -/
def netIp6Init (mac : Memory) (state : TracedMemory) : TracedMemory :=
  let state := state.put g.llMacAddr 6 mac
  let state := netIp6LlAddrFromMac g.ip6LlAddr g.llMacAddr state
  let state := netIp6SnmAddrFromMac g.ip6SnmAddr g.llMacAddr state
  let state := netIp6MulticastFromIp6At g.snmMacAddr g.ip6SnmAddr state
  let all := netIp6MulticastFromIp6 fun index => state.mem (g.ip6AllNodes + index)
  let snm : Memory := fun index => state.mem (g.snmMacAddr + index)
  let state := (netAddMcastFilter g maxMCastFilterCount snm state).2
  (netAddMcastFilter g maxMCastFilterCount all state).2

end Program

/-! ## What each routine writes -/

section Routines

open TracedMemory

variable {mac ip : Nat}

theorem netIp6MulticastFromIp6At_changes (mac ip : Nat) (state : TracedMemory) :
    Changes (Extent.Contains ⟨mac, 6⟩) state (netIp6MulticastFromIp6At mac ip state) := by
  have inside : ∀ index < 6, (⟨mac, 6⟩ : Extent).Contains (mac + index) :=
    fun _ => Extent.contains_add
  exact ((((((Changes.refl state).assign (inside 0 (by decide))).assign
    (inside 1 (by decide))).assign (inside 2 (by decide))).assign
    (inside 3 (by decide))).assign (inside 4 (by decide))).assign (inside 5 (by decide))

/-- **The hardware address of a group** is 33:33 and the end of the address of the group. -/
theorem netIp6MulticastFromIp6At_bytes (apart : mac + 6 ≤ ip ∨ ip + 16 ≤ mac)
    (state : TracedMemory) :
    (netIp6MulticastFromIp6At mac ip state).mem.bytes mac 6 =
      [0x33, 0x33] ++ state.mem.bytes (ip + 12) 4 := by
  have bytes : ∀ memory : Memory, memory.bytes mac 6 = [memory mac, memory (mac + 1),
    memory (mac + 2), memory (mac + 3), memory (mac + 4), memory (mac + 5)] := fun _ => rfl
  have last : state.mem.bytes (ip + 12) 4 = [state.mem (ip + 12), state.mem (ip + 13),
    state.mem (ip + 14), state.mem (ip + 15)] := rfl
  rw [bytes, last]
  simp (disch := omega) only [netIp6MulticastFromIp6At, assign_self, assign_of_ne,
    List.cons_append, List.nil_append]

/-- The state after the `memset` of `net_ip6_ll_addr_from_mac`. -/
def cleared (ip : Nat) (state : TracedMemory) : TracedMemory :=
  state.put (ip + 2 * 16) 6 fun _ => 0

theorem netIp6LlAddrFromMac_changes (ip mac : Nat) (state : TracedMemory) :
    Changes (Extent.Contains ⟨ip, 16⟩) (cleared ip state) (netIp6LlAddrFromMac ip mac state) := by
  have inside : ∀ index < 16, (⟨ip, 16⟩ : Extent).Contains (ip + index) :=
    fun _ => Extent.contains_add
  exact ((((((((((Changes.refl (cleared ip state)).assign (inside 0 (by decide))).assign
    (inside 1 (by decide))).assign (inside 8 (by decide))).assign
    (inside 9 (by decide))).assign (inside 10 (by decide))).assign
    (inside 11 (by decide))).assign (inside 12 (by decide))).assign
    (inside 13 (by decide))).assign (inside 14 (by decide))).assign (inside 15 (by decide))

/-- **The link-local address** keeps its middle; the rest is the prefix and the identifier of
the interface. -/
theorem netIp6LlAddrFromMac_bytes (apart : mac + 6 ≤ ip ∨ ip + 16 ≤ mac)
    (state : TracedMemory) :
    (netIp6LlAddrFromMac ip mac state).mem.bytes ip 16 =
      [0xFE, 0x80] ++ state.mem.bytes (ip + 2) 6 ++
        interfaceIdentifier ((cleared ip state).mem.bytes mac 6) := by
  have bytes : ∀ memory : Memory, memory.bytes ip 16 = [memory ip, memory (ip + 1),
    memory (ip + 2), memory (ip + 3), memory (ip + 4), memory (ip + 5), memory (ip + 6),
    memory (ip + 7), memory (ip + 8), memory (ip + 9), memory (ip + 10), memory (ip + 11),
    memory (ip + 12), memory (ip + 13), memory (ip + 14), memory (ip + 15)] := fun _ => rfl
  have middle : state.mem.bytes (ip + 2) 6 = (cleared ip state).mem.bytes (ip + 2) 6 :=
    Memory.bytes_congr fun index inside => (state.put_outside (by omega)).symm
  have kept : ∀ memory : Memory, memory.bytes (ip + 2) 6 = [memory (ip + 2), memory (ip + 3),
    memory (ip + 4), memory (ip + 5), memory (ip + 6), memory (ip + 7)] := fun _ => rfl
  have hardware : ∀ memory : Memory, memory.bytes mac 6 = [memory mac, memory (mac + 1),
    memory (mac + 2), memory (mac + 3), memory (mac + 4), memory (mac + 5)] := fun _ => rfl
  rw [bytes, middle, kept, hardware]
  simp (disch := omega) only [netIp6LlAddrFromMac, cleared, assign_self, assign_of_ne,
    List.cons_append, List.nil_append, interfaceIdentifier]

theorem netIp6SnmAddrFromMac_changes (ip mac : Nat) (state : TracedMemory) :
    Changes (Extent.Contains ⟨ip, 16⟩) state (netIp6SnmAddrFromMac ip mac state) := by
  have inside : ∀ index < 16, (⟨ip, 16⟩ : Extent).Contains (ip + index) :=
    fun _ => Extent.contains_add
  have middle : ∀ address, (⟨ip + 2, 9⟩ : Extent).Contains address →
      (⟨ip, 16⟩ : Extent).Contains address := fun address contains =>
    ⟨Nat.le_trans (Nat.le_add_right ip 2) contains.1,
      Nat.lt_of_lt_of_le contains.2 (by show ip + 2 + 9 ≤ ip + 16; omega)⟩
  exact ((((((((Changes.refl state).put middle).assign (inside 0 (by decide))).assign
    (inside 1 (by decide))).assign (inside 11 (by decide))).assign
    (inside 12 (by decide))).assign (inside 13 (by decide))).assign
    (inside 14 (by decide))).assign (inside 15 (by decide))

/-- **The solicited-node group** is filled whatever was there. -/
theorem netIp6SnmAddrFromMac_bytes (apart : mac + 6 ≤ ip ∨ ip + 16 ≤ mac)
    (state : TracedMemory) :
    (netIp6SnmAddrFromMac ip mac state).mem.bytes ip 16 =
      [0xFF, 0x02, 0, 0, 0, 0, 0, 0, 0, 0, 0, 0x01, 0xFF] ++ state.mem.bytes (mac + 3) 3 := by
  have bytes : ∀ memory : Memory, memory.bytes ip 16 = [memory ip, memory (ip + 1)] ++
      memory.bytes (ip + 2) 9 ++ [memory (ip + 11), memory (ip + 12), memory (ip + 13),
        memory (ip + 14), memory (ip + 15)] := fun _ => rfl
  have last : state.mem.bytes (mac + 3) 3 = [state.mem (mac + 3), state.mem (mac + 4),
    state.mem (mac + 5)] := rfl
  have middle : (netIp6SnmAddrFromMac ip mac state).mem.bytes (ip + 2) 9 =
      [0, 0, 0, 0, 0, 0, 0, 0, 0] := by
    have zero : (netIp6SnmAddrFromMac ip mac state).mem.bytes (ip + 2) 9 =
        Memory.bytes (fun _ => 0) 0 9 := by
      refine Memory.bytes_congr fun index inside => ?_
      simp (disch := omega) only [netIp6SnmAddrFromMac, assign_of_ne, put_offset]
    exact zero
  rw [bytes, middle, last]
  simp (disch := omega) only [netIp6SnmAddrFromMac, assign_self, assign_of_ne, put_outside,
    List.cons_append, List.nil_append]

/-- A filter is added inside the table. -/
theorem netAddMcastFilter_changes (g : NetGlobals) (maxMCastFilterCount : Memory → Nat)
    (addr : Memory) (state : TracedMemory) :
    Changes g.FilterTable state (netAddMcastFilter g maxMCastFilterCount addr state).2 := by
  rw [netAddMcastFilter]
  split
  · exact Changes.refl state
  · rename_i room
    have free : state.mem.loadLE g.mcastFilterCount 4 < 8 :=
      Nat.lt_of_not_le fun full => room (.inl full)
    refine ((Changes.refl state).put fun address contains => ?_).put fun address contains =>
      .inr contains
    obtain ⟨lower, upper⟩ := contains
    refine .inl ⟨Nat.le_trans (Nat.le_add_right _ _) lower, Nat.lt_of_lt_of_le upper ?_⟩
    show g.mcastFilters + state.mem.loadLE g.mcastFilterCount 4 * 32 + 6 ≤ g.mcastFilters + 256
    omega

end Routines

/-! ## What the derivation leaves -/

section Derivation

open TracedMemory

theorem Extent.Apart.not_contains {first second : Extent} (apart : first.Apart second)
    {address : Nat} (inside : first.Contains address) : ¬ second.Contains address := by
  rintro ⟨lower, upper⟩
  obtain ⟨lowerFirst, upperFirst⟩ := inside
  rcases apart with below | above
  · omega
  · omega

theorem Extent.Apart.symm {first second : Extent} (apart : first.Apart second) :
    second.Apart first := Or.symm apart

namespace NetGlobals

variable (g : NetGlobals)

theorem llMacAddr_apart : Extent.Apart ⟨g.llMacAddr, 6⟩ ⟨g.ip6LlAddr, 16⟩ ∧
    Extent.Apart ⟨g.llMacAddr, 6⟩ ⟨g.ip6SnmAddr, 16⟩ := by
  have first := (List.pairwise_cons.mp g.apart).1
  exact ⟨first _ (by simp), first _ (by simp)⟩

/-- An object apart from the derived globals shares no byte with them. -/
theorem not_derived {object : Extent} {address : Nat} (here : object.Contains address)
    (apart : ∀ later ∈ [⟨g.snmMacAddr, 6⟩, ⟨g.ip6SnmAddr, 16⟩, ⟨g.mcastFilters, 256⟩,
      ⟨g.mcastFilterCount, 4⟩], object.Apart later) : ¬ g.Derived address := by
  rintro (snm | snmMac | filters | count)
  · exact (apart _ (by simp)).not_contains here snm
  · exact (apart _ (by simp)).not_contains here snmMac
  · exact (apart _ (by simp)).not_contains here filters
  · exact (apart _ (by simp)).not_contains here count

theorem llMacAddr_not_derived {index : Nat} (inside : index < 6) :
    ¬ g.Derived (g.llMacAddr + index) :=
  g.not_derived (Extent.contains_add inside) fun _ member =>
    (List.pairwise_cons.mp g.apart).1 _ (List.mem_cons_of_mem _ member)

theorem ip6LlAddr_not_derived {index : Nat} (inside : index < 16) :
    ¬ g.Derived (g.ip6LlAddr + index) :=
  g.not_derived (Extent.contains_add inside)
    (List.pairwise_cons.mp (List.pairwise_cons.mp g.apart).2).1

theorem snmMacAddr_apart : Extent.Apart ⟨g.snmMacAddr, 6⟩ ⟨g.ip6SnmAddr, 16⟩ :=
  (List.pairwise_cons.mp (List.pairwise_cons.mp (List.pairwise_cons.mp g.apart).2).2).1 _
    (by simp)

/-- The hardware address of the group shares no byte with the table of filters. -/
theorem snmMacAddr_not_filterTable {index : Nat} (inside : index < 6) :
    ¬ g.FilterTable (g.snmMacAddr + index) := by
  have later := (List.pairwise_cons.mp
    (List.pairwise_cons.mp (List.pairwise_cons.mp g.apart).2).2).1
  have here : (⟨g.snmMacAddr, 6⟩ : Extent).Contains (g.snmMacAddr + index) :=
    Extent.contains_add inside
  rintro (filters | count)
  · exact (later _ (by simp)).not_contains here filters
  · exact (later _ (by simp)).not_contains here count

/-- The address of the group shares no byte with what comes after it. -/
theorem ip6SnmAddr_not_later {index : Nat} (inside : index < 16) :
    ¬ ((⟨g.snmMacAddr, 6⟩ : Extent).Contains (g.ip6SnmAddr + index) ∨
      g.FilterTable (g.ip6SnmAddr + index)) := by
  have later := (List.pairwise_cons.mp (List.pairwise_cons.mp
    (List.pairwise_cons.mp (List.pairwise_cons.mp g.apart).2).2).2).1
  have here : (⟨g.ip6SnmAddr, 16⟩ : Extent).Contains (g.ip6SnmAddr + index) :=
    Extent.contains_add inside
  rintro (snmMac | filters | count)
  · exact g.snmMacAddr_apart.symm.not_contains here snmMac
  · exact (later _ (by simp)).not_contains here filters
  · exact (later _ (by simp)).not_contains here count

end NetGlobals

variable (g : NetGlobals) (mac : Memory) (state : TracedMemory)

/-- The state after `net_ip6_ll_addr_from_mac`. -/
def withLlAddr : TracedMemory :=
  netIp6LlAddrFromMac g.ip6LlAddr g.llMacAddr (state.put g.llMacAddr 6 mac)

/-- The state after `net_ip6_snm_addr_from_mac`. -/
def withSnmAddr : TracedMemory :=
  netIp6SnmAddrFromMac g.ip6SnmAddr g.llMacAddr (withLlAddr g mac state)

/-- The state before the filters are added. -/
def withSnmMacAddr : TracedMemory :=
  netIp6MulticastFromIp6At g.snmMacAddr g.ip6SnmAddr (withSnmAddr g mac state)

/-- The hardware address as it is read back after the `memset`. -/
def readBack : Memory := fun index =>
  if (⟨g.ip6LlAddr + 2 * 16, 6⟩ : Extent).Contains (g.llMacAddr + index) then 0 else mac index

variable (maxMCastFilterCount : Memory → Nat)

theorem netIp6Init_changes_filterTable :
    Changes g.FilterTable (withSnmMacAddr g mac state)
      (netIp6Init g maxMCastFilterCount mac state) :=
  (netAddMcastFilter_changes g maxMCastFilterCount _ _).trans
    (netAddMcastFilter_changes g maxMCastFilterCount _ _)

theorem netIp6Init_changes_later :
    Changes (fun address => (⟨g.snmMacAddr, 6⟩ : Extent).Contains address ∨
      g.FilterTable address) (withSnmAddr g mac state)
      (netIp6Init g maxMCastFilterCount mac state) :=
  ((netIp6MulticastFromIp6At_changes _ _ _).mono fun _ => .inl).trans
    ((netIp6Init_changes_filterTable g mac state maxMCastFilterCount).mono fun _ => .inr)

theorem netIp6Init_changes_derived :
    Changes g.Derived (withLlAddr g mac state) (netIp6Init g maxMCastFilterCount mac state) :=
  ((netIp6SnmAddrFromMac_changes _ _ _).mono fun _ => .inl).trans
    ((netIp6Init_changes_later g mac state maxMCastFilterCount).mono fun _ => .inr)

/-- The whole derivation writes the permitted globals and the six bytes of the `memset`. -/
theorem netIp6Init_changes :
    Changes (fun address => g.Permitted address ∨
        (⟨g.ip6LlAddr + 2 * 16, 6⟩ : Extent).Contains address) state
      (netIp6Init g maxMCastFilterCount mac state) := by
  have hardware : Changes (fun address => g.Permitted address ∨
      (⟨g.ip6LlAddr + 2 * 16, 6⟩ : Extent).Contains address) state
      (cleared g.ip6LlAddr (state.put g.llMacAddr 6 mac)) :=
    ((Changes.refl state).put fun _ contains => .inl (.inl contains)).put fun _ => .inr
  refine (hardware.trans ((netIp6LlAddrFromMac_changes _ g.llMacAddr _).mono fun _ contains =>
    .inl (.inr (.inl contains)))).trans ?_
  exact (netIp6Init_changes_derived g mac state maxMCastFilterCount).mono fun _ derived =>
    .inl (.inr (.inr derived))

/-- The six bytes are among what was written. -/
theorem memset_mem_writes :
    ⟨g.ip6LlAddr + 2 * 16, 6⟩ ∈ (netIp6Init g maxMCastFilterCount mac state).writes := by
  apply (netIp6Init_changes_derived g mac state maxMCastFilterCount).kept
  apply (netIp6LlAddrFromMac_changes _ _ _).kept
  exact List.mem_cons_self

/-- The hardware address is read back with the bytes of the `memset` gone. -/
theorem cleared_bytes_llMacAddr :
    (cleared g.ip6LlAddr (state.put g.llMacAddr 6 mac)).mem.bytes g.llMacAddr 6 =
      (readBack g mac).bytes 0 6 := by
  refine Memory.bytes_congr fun index inside => ?_
  rw [Nat.zero_add, readBack, cleared]
  split
  · rename_i contained
    obtain ⟨offset, same⟩ := Nat.exists_eq_add_of_le contained.1
    have bound : offset < 6 := by
      have upper := contained.2
      dsimp only at same upper
      omega
    rw [same, put_offset _ bound]
  · rename_i missed
    rw [put_outside, put_offset _ inside]
    by_contra within
    exact missed ⟨by dsimp only; omega, by dsimp only; omega⟩

/-- **The link-local address in the end**: its middle is what it was. -/
theorem netIp6Init_ip6LlAddr :
    (netIp6Init g maxMCastFilterCount mac state).mem.bytes g.ip6LlAddr 16 =
      [0xFE, 0x80] ++ state.mem.bytes (g.ip6LlAddr + 2) 6 ++
        interfaceIdentifier ((readBack g mac).bytes 0 6) := by
  have apart := g.llMacAddr_apart.1
  have middle : (state.put g.llMacAddr 6 mac).mem.bytes (g.ip6LlAddr + 2) 6 =
      state.mem.bytes (g.ip6LlAddr + 2) 6 :=
    Memory.bytes_congr fun index inside => state.put_outside (by
      rcases apart with below | above
      · dsimp only at below
        omega
      · dsimp only at above
        omega)
  rw [(netIp6Init_changes_derived g mac state maxMCastFilterCount).bytes_eq
      fun index inside => g.ip6LlAddr_not_derived inside,
    withLlAddr, netIp6LlAddrFromMac_bytes apart, middle, cleared_bytes_llMacAddr]

/-- **The group in the end** is that of the link-local address. -/
theorem netIp6Init_ip6SnmAddr :
    (netIp6Init g maxMCastFilterCount mac state).mem.bytes g.ip6SnmAddr 16 =
      solicitedNodeGroup
        ((netIp6Init g maxMCastFilterCount mac state).mem.bytes g.ip6LlAddr 16) := by
  have low : ∀ (middle : List UInt8) (memory : Memory), middle.length = 6 →
      ([0xFE, 0x80] ++ middle ++ interfaceIdentifier (memory.bytes g.llMacAddr 6)).drop 13 =
        memory.bytes (g.llMacAddr + 3) 3 := by
    intro middle memory size
    have split : ([0xFE, 0x80] ++ middle).length = 8 := by simp [size]
    rw [List.drop_append, List.drop_eq_nil_of_le (by omega), split, List.nil_append]
    rfl
  have kept : (withLlAddr g mac state).mem.bytes (g.llMacAddr + 3) 3 =
      (cleared g.ip6LlAddr (state.put g.llMacAddr 6 mac)).mem.bytes (g.llMacAddr + 3) 3 :=
    (netIp6LlAddrFromMac_changes _ _ _).bytes_eq fun index inside => by
      rw [Nat.add_assoc]
      exact g.llMacAddr_apart.1.not_contains (Extent.contains_add (by omega))
  rw [netIp6Init_ip6LlAddr, solicitedNodeGroup, ← cleared_bytes_llMacAddr g mac state,
    low _ _ (by simp),
    (netIp6Init_changes_later g mac state maxMCastFilterCount).bytes_eq
      fun index inside => g.ip6SnmAddr_not_later inside,
    withSnmAddr, netIp6SnmAddrFromMac_bytes g.llMacAddr_apart.2, kept]

/-- **The hardware address of the group in the end.** -/
theorem netIp6Init_snmMacAddr :
    (netIp6Init g maxMCastFilterCount mac state).mem.bytes g.snmMacAddr 6 =
      groupHardwareAddress
        ((netIp6Init g maxMCastFilterCount mac state).mem.bytes g.ip6SnmAddr 16) := by
  have low : ∀ memory : Memory, (memory.bytes g.ip6SnmAddr 16).drop 12 =
      memory.bytes (g.ip6SnmAddr + 12) 4 := fun _ => rfl
  rw [(netIp6Init_changes_later g mac state maxMCastFilterCount).bytes_eq
      fun index inside => g.ip6SnmAddr_not_later inside, groupHardwareAddress, low,
    (netIp6Init_changes_filterTable g mac state maxMCastFilterCount).bytes_eq
      fun index inside => g.snmMacAddr_not_filterTable inside,
    withSnmMacAddr, netIp6MulticastFromIp6At_bytes g.snmMacAddr_apart]

end Derivation

/-! ## When the addresses are derived -/

/-- A frame with a whole IPv6 packet. -/
structure IsIp6Packet (frame : Memory) (len : Nat) : Prop where
  long : 54 ≤ len
  protocol : frame.loadLE 12 2 = htons 0x86DD
  version : frame.loadLE 14 4 &&& 0xF0 = 0x60
  whole : packetLength frame ≤ len - 54

/-- The addresses are derived from the hardware address, and nothing else was written. -/
structure AddressesDerived (g : NetGlobals) (mac : Memory) (final : TracedMemory) : Prop where
  linkLocal : final.mem.bytes g.ip6LlAddr 16 = linkLocalAddress (mac.bytes 0 6)
  group : final.mem.bytes g.ip6SnmAddr 16 =
    solicitedNodeGroup (final.mem.bytes g.ip6LlAddr 16)
  hardware : final.mem.bytes g.snmMacAddr 6 =
    groupHardwareAddress (final.mem.bytes g.ip6SnmAddr 16)
  /-- A node with this group takes the packets that are sent to the group of its address. -/
  accepts : ∀ (fw : NetFirmware) (s : NetState) (len : Nat),
    s.ip6SnmAddr.bytes 0 16 = final.mem.bytes g.ip6SnmAddr 16 → IsIp6Packet s.frame len →
      s.frame.bytes 38 16 = solicitedNodeGroup (final.mem.bytes g.ip6LlAddr 16) →
        ∃ noted, netEthReceive fw len s =
          (do receiveProtocol fw (s.frame.loadLE 20 1) (packetLength s.frame); return true)
            (s.heard noted)
  written : final.Within g.Permitted

/-- The `memset` does no harm: the middle of the link-local address was clear, and each of the
six bytes lies in a global that is derived later, or in the hardware address where that is zero
anyway. -/
structure MemsetHarmless (g : NetGlobals) (mac mem : Memory) : Prop where
  middle : mem.bytes (g.ip6LlAddr + 2) 6 = [0, 0, 0, 0, 0, 0]
  stray : ∀ index < 6, g.Derived (g.ip6LlAddr + 2 * 16 + index) ∨
    ∃ octet < 6, g.ip6LlAddr + 2 * 16 + index = g.llMacAddr + octet ∧ mac octet = 0

section Derived

open TracedMemory

variable (g : NetGlobals) (maxMCastFilterCount : Memory → Nat) (mac mem : Memory)

/-- Packets to the group pass the filter of the receiver. -/
theorem netEthReceive_group {group : List UInt8} {fw : NetFirmware} {s : NetState} {len : Nat}
    (own : s.ip6SnmAddr.bytes 0 16 = group) (packet : IsIp6Packet s.frame len)
    (destination : s.frame.bytes 38 16 = group) :
    ∃ noted, netEthReceive fw len s =
      (do receiveProtocol fw (s.frame.loadLE 20 1) (packetLength s.frame); return true)
        (s.heard noted) := by
  refine netEthReceive_accepted ⟨packet.long, packet.protocol, packet.version, packet.whole,
    .inr (.inl ?_)⟩
  rw [sameBytes_iff, bytes_shift, own, destination]

/-- The link-local address is right exactly if its middle was clear and the hardware address is
read back as it is. -/
theorem linkLocal_iff :
    [0xFE, 0x80] ++ mem.bytes (g.ip6LlAddr + 2) 6 ++
        interfaceIdentifier ((readBack g mac).bytes 0 6) = linkLocalAddress (mac.bytes 0 6) ↔
      mem.bytes (g.ip6LlAddr + 2) 6 = [0, 0, 0, 0, 0, 0] ∧
        (readBack g mac).bytes 0 6 = mac.bytes 0 6 := by
  have bytes : ∀ memory : Memory, memory.bytes 0 6 =
      [memory 0, memory 1, memory 2, memory 3, memory 4, memory 5] := fun _ => rfl
  have middle : mem.bytes (g.ip6LlAddr + 2) 6 = [mem (g.ip6LlAddr + 2), mem (g.ip6LlAddr + 3),
    mem (g.ip6LlAddr + 4), mem (g.ip6LlAddr + 5), mem (g.ip6LlAddr + 6),
    mem (g.ip6LlAddr + 7)] := rfl
  rw [bytes, bytes, middle, linkLocalAddress]
  simp [interfaceIdentifier, and_assoc]

/-- The hardware address is read back as it is exactly if the `memset` meets only zeros of it. -/
theorem readBack_bytes_iff :
    (readBack g mac).bytes 0 6 = mac.bytes 0 6 ↔ ∀ octet < 6,
      (⟨g.ip6LlAddr + 2 * 16, 6⟩ : Extent).Contains (g.llMacAddr + octet) → mac octet = 0 := by
  constructor
  · intro same octet inside contained
    have here := Memory.eq_of_bytes_eq same inside
    rw [Nat.zero_add, readBack, if_pos contained] at here
    exact here.symm
  · intro zero
    refine Memory.bytes_congr fun octet inside => ?_
    rw [Nat.zero_add, readBack]
    split
    · rename_i contained
      exact (zero octet inside contained).symm
    · rfl

/-- Nothing else is written exactly if the six bytes of the `memset` are permitted. -/
theorem within_permitted_iff :
    (netIp6Init g maxMCastFilterCount mac ⟨mem, []⟩).Within g.Permitted ↔
      ∀ index < 6, g.Permitted (g.ip6LlAddr + 2 * 16 + index) := by
  constructor
  · intro within index inside
    exact within _ (memset_mem_writes g mac _ maxMCastFilterCount) _
      (Extent.contains_add inside)
  · intro permitted
    have changes : Changes g.Permitted ⟨mem, []⟩
        (netIp6Init g maxMCastFilterCount mac ⟨mem, []⟩) :=
      (netIp6Init_changes g mac ⟨mem, []⟩ maxMCastFilterCount).mono fun address contains => by
        rcases contains with inside | stray
        · exact inside
        · obtain ⟨index, rfl⟩ := Nat.exists_eq_add_of_le stray.1
          exact permitted index (Nat.lt_of_add_lt_add_left stray.2)
    exact changes.within (List.forall_mem_nil _)

/-- **The addresses are derived, and nothing else is written**, exactly when the `memset` that
goes astray does no harm. -/
theorem netIp6Init_derived_iff :
    AddressesDerived g mac (netIp6Init g maxMCastFilterCount mac ⟨mem, []⟩) ↔
      MemsetHarmless g mac mem := by
  have own := netIp6Init_ip6LlAddr g mac ⟨mem, []⟩ maxMCastFilterCount
  constructor
  · intro derived
    obtain ⟨middle, same⟩ := (linkLocal_iff g mac mem).mp (own.symm.trans derived.linkLocal)
    have zero := (readBack_bytes_iff g mac).mp same
    refine ⟨middle, fun index inside => ?_⟩
    rcases (within_permitted_iff g maxMCastFilterCount mac mem).mp derived.written index inside
      with hardware | address | later
    · right
      obtain ⟨octet, here⟩ := Nat.exists_eq_add_of_le hardware.1
      have bound : octet < 6 := Nat.lt_of_add_lt_add_left (here ▸ hardware.2)
      refine ⟨octet, bound, here, zero octet bound ?_⟩
      have stray : (⟨g.ip6LlAddr + 2 * 16, 6⟩ : Extent).Contains (g.ip6LlAddr + 2 * 16 + index) :=
        Extent.contains_add inside
      rwa [here] at stray
    · have upper : g.ip6LlAddr + 2 * 16 + index < g.ip6LlAddr + 16 := address.2
      omega
    · exact .inl later
  · intro harmless
    have same : (readBack g mac).bytes 0 6 = mac.bytes 0 6 := by
      refine (readBack_bytes_iff g mac).mpr fun octet inside contained => ?_
      obtain ⟨index, here⟩ := Nat.exists_eq_add_of_le contained.1
      have bound : index < 6 := Nat.lt_of_add_lt_add_left (here ▸ contained.2)
      have hardware : (⟨g.llMacAddr, 6⟩ : Extent).Contains (g.llMacAddr + octet) :=
        Extent.contains_add inside
      rcases harmless.stray index bound with later | ⟨other, -, place, zero⟩
      · exact absurd later (by rw [← here]; exact g.llMacAddr_not_derived inside)
      · rwa [Nat.add_left_cancel (here.trans place)]
    exact {
      linkLocal := own.trans ((linkLocal_iff g mac mem).mpr ⟨harmless.middle, same⟩)
      group := netIp6Init_ip6SnmAddr g mac _ maxMCastFilterCount
      hardware := netIp6Init_snmMacAddr g mac _ maxMCastFilterCount
      accepts := fun fw s len snm packet destination =>
        netEthReceive_group (snm.trans (netIp6Init_ip6SnmAddr g mac _ maxMCastFilterCount))
          packet destination
      written := (within_permitted_iff g maxMCastFilterCount mac mem).mpr fun index inside =>
        (harmless.stray index inside).elim (fun later => .inr (.inr later))
          fun ⟨octet, bound, place, _⟩ => .inl (by
            rw [place]
            exact Extent.contains_add bound) }

end Derived

/-! ## Two runs -/

/-- The globals in the order of their declarations. -/
def declaredGlobals : NetGlobals where
  llMacAddr := 0x1000
  ip6LlAddr := 0x1006
  snmMacAddr := 0x1016
  ip6SnmAddr := 0x101C
  ip6AllNodes := 0x2000
  mcastFilters := 0x3000
  mcastFilterCount := 0x3100
  apart := by decide

def sampleMac : Memory := fun index => [0x52, 0x54, 0x00, 0x12, 0x34, 0x56].getD index 0

/-- In this order the six bytes lie in the address of the group. -/
theorem netIp6Init_derived_sample :
    AddressesDerived declaredGlobals sampleMac
      (netIp6Init declaredGlobals (fun _ => 16) sampleMac ⟨fun _ => 0, []⟩) := by
  refine (netIp6Init_derived_iff declaredGlobals (fun _ => 16) sampleMac _).mpr
    ⟨by decide, fun index inside => .inl (.inl ?_)⟩
  exact ⟨show 0x101C ≤ 0x1006 + 2 * 16 + index by omega,
    show 0x1006 + 2 * 16 + index < 0x101C + 16 by omega⟩

/-- What the globals held before shows in the link-local address. -/
theorem staleMiddle_not_derived :
    ¬ ∀ (g : NetGlobals) (maxMCastFilterCount : Memory → Nat) (mac mem : Memory),
      AddressesDerived g mac (netIp6Init g maxMCastFilterCount mac ⟨mem, []⟩) := by
  intro always
  have derived := (always declaredGlobals (fun _ => 16) sampleMac fun _ => 0xAA).linkLocal
  exact absurd derived (by decide +kernel)

end VineyardLoader
