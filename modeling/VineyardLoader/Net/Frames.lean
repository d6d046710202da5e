import VineyardLoader.Net.Checksum

/-!
# The frames that are sent

What `net_udp6_send` and `net_icmp6_send` hand to `Transmit`, as lists of bytes. A packet frame
has an Ethernet header, an IPv6 header and a payload (`packetFrame`). The payload is a UDP packet
(`udpPacket`) or an ICMPv6 message (`icmpMessage`), each with the Internet checksum over its
pseudo-header and itself.

The senders write the fields one by one into a transmit buffer. Each write misses the fields
around it, so the buffer holds the list (`netUdp6Send_frame`, `netIcmp6Send_frame`).
-/

set_option autoImplicit false

namespace VineyardLoader

/-! ## Frames as lists -/

/-- A frame with an IPv6 packet. -/
def packetFrame (mac llMac src dst : Memory) (type : Nat) (payload : List UInt8) : List UInt8 :=
  mac.bytes 0 6 ++ (llMac.bytes 0 6 ++ ([0x86, 0xDD] ++ ([0x60, 0, 0, 0] ++
    (bigEndian 2 payload.length ++ ([UInt8.ofNat type] ++ ([255] ++
      (src.bytes 0 16 ++ (dst.bytes 0 16 ++ payload))))))))

/-- The pseudo-header of a packet between two addresses. -/
def pseudoBytes (src dst : Memory) (length type : Nat) : List UInt8 :=
  src.bytes 0 16 ++ dst.bytes 0 16 ++ bigEndian 4 length ++ bigEndian 4 type

/-- A UDP header. -/
def udpHeader (sourcePort destPort length checksum : Nat) : List UInt8 :=
  bigEndian 2 sourcePort ++ (bigEndian 2 destPort ++ (bigEndian 2 length ++ bigEndian 2 checksum))

/-- What the checksum of a UDP packet covers, with zero in the place of the checksum. -/
def udpCovered (src dst data : Memory) (len destPort sourcePort : Nat) : List UInt8 :=
  pseudoBytes src dst (len + 8) 17 ++
    (udpHeader sourcePort destPort (len + 8) 0 ++ data.bytes 0 len)

/-- A UDP packet. -/
def udpPacket (src dst data : Memory) (len destPort sourcePort : Nat) : List UInt8 :=
  udpHeader sourcePort destPort (len + 8)
    (internetChecksum (udpCovered src dst data len destPort sourcePort)) ++ data.bytes 0 len

/-- An ICMPv6 message: the data with the checksum in its place. -/
def icmpMessage (src dst data : Memory) (length : Nat) : List UInt8 :=
  (data.storeLE 2 2 (swapBytes (internetChecksum
    (pseudoBytes src dst length 58 ++ data.bytes 0 length)))).bytes 0 length

@[simp]
theorem udpPacket_length (src dst data : Memory) (len destPort sourcePort : Nat) :
    (udpPacket src dst data len destPort sourcePort).length = len + 8 := by
  simp [udpPacket, udpHeader]
  omega

@[simp]
theorem icmpMessage_length (src dst data : Memory) (length : Nat) :
    (icmpMessage src dst data length).length = length := by
  simp [icmpMessage]

theorem packetFrame_length (mac llMac src dst : Memory) (type : Nat) (payload : List UInt8) :
    (packetFrame mac llMac src dst type payload).length = 54 + payload.length := by
  simp [packetFrame]
  omega

/-! ## Headers -/

/-- The hardware address for an IPv6 address, as `net_ip6_resolve` finds it. -/
def NetState.resolve (s : NetState) (ip : Memory) : Option Memory :=
  if ip 0 = 0xFF then some (netIp6MulticastFromIp6 ip)
  else if sameBytes ip s.remoteIp6Addr 16 then some s.remoteMacAddr
  else none

theorem netIp6Resolve_run (ip : Memory) (s : NetState) :
    netIp6Resolve ip s = .ok (s.resolve ip) s := by
  rw [netIp6Resolve, bind_of_ok (get_run _), NetState.resolve]
  split
  · rfl
  · split <;> rfl

/-- The memory with the headers of a packet at an address. -/
def NetState.withHeaders (s : NetState) (p : Nat) (mac addr : Memory) (length type : Nat) : Memory :=
  let mem := s.mem.overwrite p 6 mac
  let mem := mem.overwrite (p + 6) 6 s.llMacAddr
  let mem := mem.storeLE (p + 12) 2 (htons 0x86DD)
  let mem := mem.storeLE (p + 14) 4 0x60
  let mem := mem.storeLE (p + 18) 2 (htons (length % 2 ^ 16))
  let mem := mem.storeLE (p + 20) 1 type
  let mem := mem.storeLE (p + 21) 1 255
  let mem := mem.overwrite (p + 22) 16 s.ip6LlAddr
  mem.overwrite (p + 38) 16 addr

theorem netIp6PacketSetup_some {s : NetState} {addr mac : Memory} (found : s.resolve addr = some mac)
    (p length type : Nat) :
    netIp6PacketSetup p addr length type s =
      .ok true { s with mem := s.withHeaders p mac addr length type } := by
  rw [netIp6PacketSetup, bind_of_ok (netIp6Resolve_run _ _), found]
  rfl

theorem netIp6PacketSetup_none {s : NetState} {addr : Memory} (missing : s.resolve addr = none)
    (p length type : Nat) : netIp6PacketSetup p addr length type s = .ok false s := by
  rw [netIp6PacketSetup, bind_of_ok (netIp6Resolve_run _ _), missing]
  rfl

theorem bytes_storeLE_one (mem : Memory) (address value : Nat) :
    (mem.storeLE address 1 value).bytes address 1 = [UInt8.ofNat value] := by
  rw [Memory.storeLE, Memory.bytes_overwrite]
  simp [Memory.bytes]

/-- The fields of the headers of a frame. -/
theorem bytes_headers (mem : Memory) (p : Nat) :
    mem.bytes p 54 = mem.bytes p 6 ++ (mem.bytes (p + 6) 6 ++ (mem.bytes (p + 12) 2 ++
      (mem.bytes (p + 14) 4 ++ (mem.bytes (p + 18) 2 ++ (mem.bytes (p + 20) 1 ++
        (mem.bytes (p + 21) 1 ++ (mem.bytes (p + 22) 16 ++ mem.bytes (p + 38) 16))))))) := by
  rw [show 54 = 6 + (6 + (2 + (4 + (2 + (1 + (1 + (16 + 16))))))) from rfl]
  repeat rw [mem.bytes_add]

/-- The headers in the buffer. -/
theorem NetState.withHeaders_bytes (s : NetState) (p : Nat) (mac addr : Memory) {length : Nat}
    (type : Nat) (short : length < 2 ^ 16) :
    (s.withHeaders p mac addr length type).bytes p 54 =
      mac.bytes 0 6 ++ (s.llMacAddr.bytes 0 6 ++ ([0x86, 0xDD] ++ ([0x60, 0, 0, 0] ++
        (bigEndian 2 length ++ ([UInt8.ofNat type] ++ ([255] ++
          (s.ip6LlAddr.bytes 0 16 ++ addr.bytes 0 16))))))) := by
  have two : ∀ (mem : Memory) address value,
      (mem.overwrite address 2 fun index => UInt8.ofNat (htons value / 256 ^ index)).bytes address 2 =
        bigEndian 2 value := bytes_storeLE_swapBytes
  have one : ∀ (mem : Memory) address value,
      (mem.overwrite address 1 fun index => UInt8.ofNat (value / 256 ^ index)).bytes address 1 =
        [UInt8.ofNat value] := bytes_storeLE_one
  have version : ∀ (mem : Memory) address,
      (mem.overwrite address 4 fun index => UInt8.ofNat (0x60 / 256 ^ index)).bytes address 4 =
        [0x60, 0, 0, 0] := fun mem address => mem.bytes_overwrite _ _ _
  have protocol : bigEndian 2 0x86DD = [0x86, 0xDD] := by decide
  rw [bytes_headers]
  simp (disch := omega) only [NetState.withHeaders, Memory.storeLE,
    Memory.bytes_overwrite_of_disjoint, two, one, version, Memory.bytes_overwrite, protocol,
    Nat.mod_eq_of_lt short]
  rfl

theorem NetState.withHeaders_outside (s : NetState) {p address : Nat} (mac addr : Memory)
    (length type : Nat) (outside : address < p ∨ p + 54 ≤ address) :
    s.withHeaders p mac addr length type address = s.mem address := by
  simp (disch := omega) only [NetState.withHeaders, Memory.storeLE, Memory.overwrite_outside]

theorem NetState.withHeaders_addresses (s : NetState) (p : Nat) (mac addr : Memory)
    (length type : Nat) :
    (s.withHeaders p mac addr length type).bytes (p + 22) 32 =
      s.ip6LlAddr.bytes 0 16 ++ addr.bytes 0 16 := by
  rw [show 32 = 16 + 16 from rfl, Memory.bytes_add]
  simp (disch := omega) only [NetState.withHeaders, Nat.add_assoc, Nat.reduceAdd,
    Memory.bytes_overwrite_of_disjoint, Memory.bytes_overwrite]

theorem NetState.withHeaders_length (s : NetState) (p : Nat) (mac addr : Memory) {length : Nat}
    (type : Nat) (short : length < 2 ^ 16) :
    (s.withHeaders p mac addr length type).loadLE (p + 18) 2 = htons length := by
  have field : ∀ mem : Memory, (mem.overwrite (p + 18) 2 fun index =>
      UInt8.ofNat (htons length / 256 ^ index)).loadLE (p + 18) 2 = htons length := by
    intro mem
    have small := htons_lt length
    rw [← Memory.storeLE, Memory.loadLE_storeLE, Nat.mod_eq_of_lt (by omega)]
  simp (disch := omega) only [NetState.withHeaders, Memory.storeLE,
    Memory.loadLE_overwrite_of_disjoint, Nat.mod_eq_of_lt short, field]

/-! ## Transmit buffers -/

/-- The state with the first transmit buffer taken. -/
def NetState.popped (s : NetState) : NetState :=
  { s with
    ethBufpool := s.mem.load64 s.ethBufpool
    mem := s.mem.store64 s.ethBufpool 0
    ethBufpoolAvail := (s.ethBufpoolAvail + 2 ^ 32 - 1) % 2 ^ 32 }

/-- The state with the transmit buffer of a pointer given back. -/
def NetState.returned (s : NetState) (data : Nat) : NetState :=
  { s with
    mem := s.mem.store64 (data &&& 0xFFFFF800) s.ethBufpool
    ethBufpoolAvail := (s.ethBufpoolAvail + 1) % 2 ^ 32
    ethBufpool := data &&& 0xFFFFF800 }

/-- The state after `Transmit`. A buffer that the driver does not take is given back. -/
def NetState.transmitted (fw : NetFirmware) (s : NetState) (data len : Nat) : NetState :=
  let sent := { s with transmissions :=
    ⟨data, s.mem.bytes data len, fw.transmit s data len⟩ :: s.transmissions }
  if fw.transmit s data len then sent else sent.returned data

theorem netBufpoolGet_none {s : NetState} (empty : s.ethBufpool = 0) :
    netBufpoolGet ethMtu s = .ok none s := by
  rw [netBufpoolGet, bind_of_ok (get_run _), if_neg (Nat.lt_irrefl _), if_pos empty]
  rfl

theorem netBufpoolGet_some {s : NetState} (free : s.ethBufpool ≠ 0) :
    netBufpoolGet ethMtu s = .ok (some (s.ethBufpool + 8)) s.popped := by
  rw [netBufpoolGet, bind_of_ok (get_run _), if_neg (Nat.lt_irrefl _), if_neg free]
  rfl

theorem netEthSend_run (fw : NetFirmware) (data len : Nat) (s : NetState) :
    netEthSend fw data len s = .ok () (s.transmitted fw data len) := by
  rw [netEthSend, bind_of_ok (get_run _), bind_of_ok (rfl : (set _ : Net Unit) s = .ok () _),
    NetState.transmitted]
  cases fw.transmit s data len with
  | true => rfl
  | false => rfl

theorem NetState.transmitted_transmissions (fw : NetFirmware) (s : NetState) (data len : Nat) :
    (s.transmitted fw data len).transmissions =
      ⟨data, s.mem.bytes data len, fw.transmit s data len⟩ :: s.transmissions := by
  rw [NetState.transmitted]
  split <;> rfl

/-! ## UDP -/

/-- The memory with a UDP packet after the headers of a frame. -/
def NetState.withUdp (s : NetState) (p : Nat) (mac addr data : Memory)
    (len destPort sourcePort : Nat) : Memory :=
  let mem := (s.withHeaders p mac addr (len + 8) 17).storeLE (p + 54) 2 (htons sourcePort)
  let mem := mem.storeLE (p + 56) 2 (htons destPort)
  let mem := mem.storeLE (p + 58) 2 (htons ((len + 8) % 2 ^ 16))
  let mem := mem.storeLE (p + 60) 2 0
  let mem := mem.overwrite (p + 62) len data
  mem.storeLE (p + 60) 2 (netIp6Checksum mem (p + 14) 17 (len + 8))

theorem NetState.withUdp_outside (s : NetState) {p address : Nat} (mac addr data : Memory) {len : Nat}
    (destPort sourcePort : Nat) (outside : address < p ∨ p + (62 + len) ≤ address) :
    s.withUdp p mac addr data len destPort sourcePort address = s.mem address := by
  rw [← s.withHeaders_outside mac addr (len + 8) 17 (show address < p ∨ p + 54 ≤ address by omega)]
  simp (disch := omega) only [NetState.withUdp, Memory.storeLE, Memory.overwrite_outside]

variable {fw : NetFirmware} {s : NetState} {addr mac : Memory}

theorem netUdp6Send_empty (empty : s.ethBufpool = 0) (data : Memory) (len destPort sourcePort : Nat) :
    netUdp6Send fw data len addr destPort sourcePort s = .ok () s := by
  rw [netUdp6Send, bind_of_ok (netBufpoolGet_none empty)]
  rfl

theorem netUdp6Send_none (free : s.ethBufpool ≠ 0) (missing : s.resolve addr = none) (data : Memory)
    (len destPort sourcePort : Nat) :
    netUdp6Send fw data len addr destPort sourcePort s =
      .ok () (s.popped.returned (s.ethBufpool + 8)) := by
  have same : s.popped.resolve addr = none := missing
  rw [netUdp6Send, bind_of_ok (netBufpoolGet_some free)]
  simp only
  rw [bind_of_ok (netIp6PacketSetup_none same _ _ _)]
  rfl

theorem netUdp6Send_some (free : s.ethBufpool ≠ 0) (found : s.resolve addr = some mac)
    (data : Memory) (len destPort sourcePort : Nat) :
    netUdp6Send fw data len addr destPort sourcePort s =
      .ok () (NetState.transmitted fw
        { s.popped with
          mem := s.popped.withUdp (s.ethBufpool + 8) mac addr data len destPort sourcePort }
        (s.ethBufpool + 8) (54 + (len + 8))) := by
  have same : s.popped.resolve addr = some mac := found
  rw [netUdp6Send, bind_of_ok (netBufpoolGet_some free)]
  simp only
  rw [bind_of_ok (netIp6PacketSetup_some same _ _ _), if_pos rfl, bind_of_ok (modify_run _ _),
    netEthSend_run]
  rfl

theorem pseudoHeader_eq {mem src dst : Memory} {ip : Nat} (length type : Nat)
    (addresses : mem.bytes (ip + 8) 32 = src.bytes 0 16 ++ dst.bytes 0 16) :
    pseudoHeader mem ip length type = pseudoBytes src dst length type := by
  rw [pseudoHeader, addresses, pseudoBytes]

/-- Where the headers of a packet are in a buffer, its checksum is the Internet checksum over the
pseudo-header and the payload. -/
theorem NetState.netIp6Checksum_withHeaders (s : NetState) {mem mac addr : Memory}
    {p length type : Nat} (typed : type < 2 ^ 16) (short : length < 2 ^ 16)
    (headers : ∀ index, index < 54 →
      mem (p + index) = s.withHeaders p mac addr length type (p + index)) :
    netIp6Checksum mem (p + 14) type length = swapBytes (internetChecksum
      (pseudoBytes s.ip6LlAddr addr length type ++ mem.bytes (p + 54) length)) := by
  have field : mem.loadLE (p + 14 + 4) 2 = htons length := by
    rw [← s.withHeaders_length p mac addr type short]
    apply Memory.loadLE_congr
    intro index inside
    rw [Nat.add_assoc, Nat.add_assoc]
    exact headers _ (by omega)
  have addresses : mem.bytes (p + 14 + 8) 32 = s.ip6LlAddr.bytes 0 16 ++ addr.bytes 0 16 := by
    rw [← s.withHeaders_addresses p mac addr length type]
    apply Memory.bytes_congr
    intro index inside
    rw [Nat.add_assoc, Nat.add_assoc]
    exact headers _ (by omega)
  rw [netIp6Checksum_eq typed short field, pseudoHeader_eq _ _ addresses, Nat.add_assoc p]

/-- The fields of a UDP packet. -/
theorem bytes_udp (mem : Memory) (p len : Nat) :
    mem.bytes (p + 54) (len + 8) = mem.bytes (p + 54) 2 ++ (mem.bytes (p + 56) 2 ++
      (mem.bytes (p + 58) 2 ++ mem.bytes (p + 60) 2)) ++ mem.bytes (p + 62) len := by
  rw [show len + 8 = (2 + (2 + (2 + 2))) + len by omega]
  repeat rw [mem.bytes_add]

/-- **The buffer holds the frame of the packet.** -/
theorem NetState.withUdp_bytes (s : NetState) (p : Nat) (mac addr data : Memory) {len : Nat}
    (destPort sourcePort : Nat) (short : len + 8 < 2 ^ 16) :
    (s.withUdp p mac addr data len destPort sourcePort).bytes p (54 + (len + 8)) =
      packetFrame mac s.llMacAddr s.ip6LlAddr addr 17
        (udpPacket s.ip6LlAddr addr data len destPort sourcePort) := by
  have two : ∀ (mem : Memory) address value,
      (mem.overwrite address 2 fun index => UInt8.ofNat (htons value / 256 ^ index)).bytes address 2 =
        bigEndian 2 value := bytes_storeLE_swapBytes
  have zero : ∀ (mem : Memory) address,
      (mem.overwrite address 2 fun index => UInt8.ofNat (0 / 256 ^ index)).bytes address 2 =
        bigEndian 2 0 := fun mem address => mem.bytes_overwrite _ _ _
  -- the packet as the checksum sees it
  obtain ⟨before, known⟩ : ∃ mem, mem =
      (((((s.withHeaders p mac addr (len + 8) 17).storeLE (p + 54) 2 (htons sourcePort)).storeLE
        (p + 56) 2 (htons destPort)).storeLE (p + 58) 2 (htons ((len + 8) % 2 ^ 16))).storeLE
          (p + 60) 2 0).overwrite (p + 62) len data := ⟨_, rfl⟩
  have headers : ∀ index, index < 54 →
      before (p + index) = s.withHeaders p mac addr (len + 8) 17 (p + index) := by
    intro index inside
    rw [known]
    simp (disch := omega) only [Memory.storeLE, Memory.overwrite_outside]
  have payload : before.bytes (p + 54) (len + 8) =
      udpHeader sourcePort destPort (len + 8) 0 ++ data.bytes 0 len := by
    rw [bytes_udp, known, udpHeader]
    simp (disch := omega) only [Memory.storeLE, Memory.bytes_overwrite_of_disjoint, two, zero,
      Memory.bytes_overwrite, Nat.mod_eq_of_lt short]
  have checksum : netIp6Checksum before (p + 14) 17 (len + 8) = swapBytes (internetChecksum
      (udpCovered s.ip6LlAddr addr data len destPort sourcePort)) := by
    rw [s.netIp6Checksum_withHeaders (by decide) short headers, payload, udpCovered]
  have whole : s.withUdp p mac addr data len destPort sourcePort =
      before.storeLE (p + 60) 2 (swapBytes (internetChecksum
        (udpCovered s.ip6LlAddr addr data len destPort sourcePort))) := by
    rw [← checksum, known]
    rfl
  have fields : before.bytes (p + 54) 2 = bigEndian 2 sourcePort ∧
      before.bytes (p + 56) 2 = bigEndian 2 destPort ∧
      before.bytes (p + 58) 2 = bigEndian 2 (len + 8) ∧
      before.bytes (p + 62) len = data.bytes 0 len := by
    rw [known]
    refine ⟨?_, ?_, ?_, ?_⟩
    all_goals
      simp (disch := omega) only [Memory.storeLE, Memory.bytes_overwrite_of_disjoint, two,
        Memory.bytes_overwrite, Nat.mod_eq_of_lt short]
  have outside : ∀ start size, start + size ≤ p + 60 ∨ p + 62 ≤ start →
      (before.storeLE (p + 60) 2 (swapBytes (internetChecksum
        (udpCovered s.ip6LlAddr addr data len destPort sourcePort)))).bytes start size =
          before.bytes start size :=
    fun _ _ apart => before.bytes_overwrite_of_disjoint (by omega)
  rw [whole, Memory.bytes_add, bytes_udp, outside p 54 (by omega), outside (p + 54) 2 (by omega),
    outside (p + 56) 2 (by omega), outside (p + 58) 2 (by omega),
    outside (p + 62) len (by omega), Memory.bytes_congr headers, fields.1, fields.2.1,
    fields.2.2.1, fields.2.2.2, bytes_storeLE_swapBytes, s.withHeaders_bytes p mac addr 17 short,
    packetFrame, udpPacket_length]
  simp only [udpPacket, udpHeader, List.append_assoc]

/-- **`net_udp6_send` hands the frame of its packet to `Transmit`.** -/
theorem netUdp6Send_frame (free : s.ethBufpool ≠ 0) (found : s.resolve addr = some mac)
    (data : Memory) {len : Nat} (destPort sourcePort : Nat) (short : len + 8 < 2 ^ 16) :
    ∃ t sent, netUdp6Send fw data len addr destPort sourcePort s = .ok () t ∧
      t.transmissions = sent :: s.transmissions ∧
      sent.bytes = packetFrame mac s.llMacAddr s.ip6LlAddr addr 17
        (udpPacket s.ip6LlAddr addr data len destPort sourcePort) :=
  ⟨_, _, netUdp6Send_some free found data len destPort sourcePort,
    NetState.transmitted_transmissions fw _ _ _,
    s.popped.withUdp_bytes _ mac addr data _ _ short⟩

/-! ## ICMPv6 -/

/-- The memory with an ICMPv6 message after the headers of a frame. -/
def NetState.withIcmp (s : NetState) (p : Nat) (mac addr data : Memory) (length : Nat) : Memory :=
  let mem := (s.withHeaders p mac addr length 58).overwrite (p + 54) length data
  mem.storeLE (p + 56) 2 (netIp6Checksum mem (p + 14) 58 length)

theorem NetState.withIcmp_outside (s : NetState) {p address : Nat} (mac addr data : Memory)
    {length : Nat} (outside : address < p ∨ p + (58 + length) ≤ address) :
    s.withIcmp p mac addr data length address = s.mem address := by
  rw [← s.withHeaders_outside mac addr length 58 (show address < p ∨ p + 54 ≤ address by omega)]
  simp (disch := omega) only [NetState.withIcmp, Memory.storeLE, Memory.overwrite_outside]

/-- **The buffer holds the frame of the message.** -/
theorem NetState.withIcmp_bytes (s : NetState) (p : Nat) (mac addr data : Memory) {length : Nat}
    (short : length < 2 ^ 16) :
    (s.withIcmp p mac addr data length).bytes p (54 + length) =
      packetFrame mac s.llMacAddr s.ip6LlAddr addr 58
        (icmpMessage s.ip6LlAddr addr data length) := by
  obtain ⟨before, known⟩ : ∃ mem, mem =
      (s.withHeaders p mac addr length 58).overwrite (p + 54) length data := ⟨_, rfl⟩
  have headers : ∀ index, index < 54 →
      before (p + index) = s.withHeaders p mac addr length 58 (p + index) := by
    intro index inside
    rw [known, Memory.overwrite_outside _ (by omega)]
  have payload : before.bytes (p + 54) length = data.bytes 0 length := by
    rw [known]
    exact Memory.bytes_overwrite _ _ _ _
  have checksum : netIp6Checksum before (p + 14) 58 length = swapBytes (internetChecksum
      (pseudoBytes s.ip6LlAddr addr length 58 ++ data.bytes 0 length)) := by
    rw [s.netIp6Checksum_withHeaders (by decide) short headers, payload]
  have whole : s.withIcmp p mac addr data length = before.storeLE (p + 56) 2 (swapBytes
      (internetChecksum (pseudoBytes s.ip6LlAddr addr length 58 ++ data.bytes 0 length))) := by
    rw [← checksum, known]
    rfl
  have message : ∀ value, (before.storeLE (p + 56) 2 value).bytes (p + 54) length =
      (data.storeLE 2 2 value).bytes 0 length := by
    intro value
    apply Memory.bytes_congr
    intro index inside
    have byte : before (p + 54 + index) = data index := by
      rw [known, Memory.overwrite_offset _ inside]
    unfold Memory.storeLE
    rw [Nat.zero_add]
    by_cases here : 2 ≤ index ∧ index < 4
    · rw [Memory.overwrite_inside _ (by omega) (by omega),
        Memory.overwrite_inside _ (by omega) (by omega),
        show p + 54 + index - (p + 56) = index - 2 by omega]
    · rw [Memory.overwrite_outside _ (by omega), Memory.overwrite_outside _ (by omega), byte]
  have outside : ∀ value, (before.storeLE (p + 56) 2 value).bytes p 54 = before.bytes p 54 :=
    fun _ => before.bytes_overwrite_of_disjoint (by omega)
  rw [whole, Memory.bytes_add, message, outside, Memory.bytes_congr headers,
    s.withHeaders_bytes p mac addr 58 short, packetFrame, icmpMessage_length, icmpMessage]
  simp only [List.append_assoc]

theorem netIcmp6Send_empty (empty : s.ethBufpool = 0) (data : Net Memory) (length : Nat) :
    netIcmp6Send fw data length addr s = .ok () s := by
  rw [netIcmp6Send, bind_of_ok (netBufpoolGet_none empty)]
  rfl

theorem netIcmp6Send_long (free : s.ethBufpool ≠ 0) (data : Net Memory) {length : Nat}
    (long : 1460 < length) :
    netIcmp6Send fw data length addr s = .ok () (s.popped.returned (s.ethBufpool + 8)) := by
  rw [netIcmp6Send, bind_of_ok (netBufpoolGet_some free)]
  simp only
  rw [if_pos long]
  rfl

theorem netIcmp6Send_none (free : s.ethBufpool ≠ 0) (missing : s.resolve addr = none)
    (data : Net Memory) {length : Nat} (short : length ≤ 1460) :
    netIcmp6Send fw data length addr s = .ok () (s.popped.returned (s.ethBufpool + 8)) := by
  have same : s.popped.resolve addr = none := missing
  rw [netIcmp6Send, bind_of_ok (netBufpoolGet_some free)]
  simp only
  rw [if_neg (Nat.not_lt.mpr short), bind_of_ok (netIp6PacketSetup_none same _ _ _)]
  rfl

/-- The data of a message, read where it is copied. -/
def Reads (data : Net Memory) (source : Memory) (s : NetState) : Prop :=
  ∀ u : NetState, u.frame = s.frame → ∃ noted, data u = .ok source { u with frameReads := noted }

theorem netIcmp6Send_some (free : s.ethBufpool ≠ 0) (found : s.resolve addr = some mac)
    {data : Net Memory} {source : Memory} (reads : Reads data source s) {length : Nat}
    (short : length ≤ 1460) :
    ∃ noted, netIcmp6Send fw data length addr s =
      .ok () (NetState.transmitted fw
        { s.popped with
          mem := s.popped.withIcmp (s.ethBufpool + 8) mac addr source length
          frameReads := noted }
        (s.ethBufpool + 8) (54 + length)) := by
  have same : s.popped.resolve addr = some mac := found
  obtain ⟨noted, read⟩ := reads
    { s.popped with mem := s.popped.withHeaders (s.ethBufpool + 8) mac addr length 58 } rfl
  refine ⟨noted, ?_⟩
  rw [netIcmp6Send, bind_of_ok (netBufpoolGet_some free)]
  simp only
  rw [if_neg (Nat.not_lt.mpr short), bind_of_ok (netIp6PacketSetup_some same _ _ _), if_pos rfl,
    bind_of_ok read, bind_of_ok (modify_run _ _), netEthSend_run]
  rfl

/-- **`net_icmp6_send` hands the frame of its message to `Transmit`.** -/
theorem netIcmp6Send_frame (free : s.ethBufpool ≠ 0) (found : s.resolve addr = some mac)
    {data : Net Memory} {source : Memory} (reads : Reads data source s) {length : Nat}
    (short : length ≤ 1460) :
    ∃ t sent, netIcmp6Send fw data length addr s = .ok () t ∧
      t.transmissions = sent :: s.transmissions ∧
      sent.bytes = packetFrame mac s.llMacAddr s.ip6LlAddr addr 58
        (icmpMessage s.ip6LlAddr addr source length) := by
  obtain ⟨noted, run⟩ := netIcmp6Send_some free found reads short
  exact ⟨_, _, run, NetState.transmitted_transmissions fw _ _ _,
    s.popped.withIcmp_bytes _ mac addr source (by omega)⟩

end VineyardLoader
