import VineyardLoader.Net.Bounds
import VineyardLoader.Net.Frames

/-!
# Datagrams from sender to receiver

A frame that `net_udp6_send` hands to `Transmit` arrives in the receive buffer of another node.
The fields that the receiver reads are the parts of the list of bytes that the sender built
(`packetFrame_fields`), so the checks of `net_eth_receive` pass and the datagram reaches
`net_udp6_receive` as it was sent (`udp_round_trip`).

The checksum of a datagram is stored as it is computed. It verifies at the receiver, but it is
zero for one sum in 65535, and UDP over IPv6 does not allow that
(`udp_checksum_nonzero_iff`).
-/

set_option autoImplicit false

namespace VineyardLoader

/-! ## Fields of a frame -/

section Fields

variable {frame mac llMac src dst : Memory} {type : Nat} {payload : List UInt8}

/-- The fields of a frame that holds a packet. -/
structure HoldsPacket (frame mac llMac src dst : Memory) (type : Nat) (payload : List UInt8) :
    Prop where
  destination : frame.bytes 0 6 = mac.bytes 0 6
  source : frame.bytes 6 6 = llMac.bytes 0 6
  protocol : frame.bytes 12 2 = [0x86, 0xDD]
  version : frame.bytes 14 4 = [0x60, 0, 0, 0]
  length : frame.bytes 18 2 = bigEndian 2 payload.length
  nextHeader : frame.bytes 20 1 = [UInt8.ofNat type]
  hopLimit : frame.bytes 21 1 = [255]
  ip6Source : frame.bytes 22 16 = src.bytes 0 16
  ip6Destination : frame.bytes 38 16 = dst.bytes 0 16
  data : frame.bytes 54 payload.length = payload

theorem packetFrame_fields
    (holds : frame.bytes 0 (54 + payload.length) = packetFrame mac llMac src dst type payload) :
    HoldsPacket frame mac llMac src dst type payload := by
  rw [frame.bytes_add, bytes_headers, packetFrame] at holds
  simp only [List.append_assoc, Nat.zero_add] at holds
  obtain ⟨destination, holds⟩ := List.append_inj holds (by simp)
  obtain ⟨source, holds⟩ := List.append_inj holds (by simp)
  obtain ⟨protocol, holds⟩ := List.append_inj holds (by simp)
  obtain ⟨version, holds⟩ := List.append_inj holds (by simp)
  obtain ⟨length, holds⟩ := List.append_inj holds (by simp)
  obtain ⟨nextHeader, holds⟩ := List.append_inj holds (by simp)
  obtain ⟨hopLimit, holds⟩ := List.append_inj holds (by simp)
  obtain ⟨ip6Source, holds⟩ := List.append_inj holds (by simp)
  obtain ⟨ip6Destination, data⟩ := List.append_inj holds (by simp)
  exact ⟨destination, source, protocol, version, length, nextHeader, hopLimit, ip6Source,
    ip6Destination, data⟩

/-- A number in the order of the network, loaded. -/
theorem loadLE_bigEndian {mem : Memory} {start value : Nat}
    (holds : mem.bytes start 2 = bigEndian 2 value) : mem.loadLE start 2 = htons value := by
  simp only [Memory.bytes_two, bigEndian, Nat.pow_zero, Nat.pow_one, Nat.div_one, List.cons.injEq,
    and_true] at holds
  rw [mem.loadLE_two, holds.1, holds.2, UInt8.toNat_ofNat', UInt8.toNat_ofNat', htons]
  omega

theorem htons_loadLE_bigEndian {mem : Memory} {start value : Nat} (small : value < 2 ^ 16)
    (holds : mem.bytes start 2 = bigEndian 2 value) : htons (mem.loadLE start 2) = value := by
  rw [loadLE_bigEndian holds]
  exact swapBytes_swapBytes small

theorem loadLE_one {mem : Memory} {start : Nat} {byte : UInt8} (holds : mem.bytes start 1 = [byte]) :
    mem.loadLE start 1 = byte.toNat := by
  have first : mem start = byte := by simpa [Memory.bytes] using holds
  simp [Memory.loadLE, first]

theorem sameBytes_iff {first second : Memory} {count : Nat} :
    sameBytes first second count = true ↔ first.bytes 0 count = second.bytes 0 count := by
  simp only [sameBytes, List.all_eq_true, List.mem_range, beq_iff_eq]
  constructor
  · intro same
    exact Memory.bytes_congr fun index inside => by
      rw [Nat.zero_add]
      exact same index inside
  · intro same index inside
    have here := Memory.eq_of_bytes_eq same inside
    rwa [Nat.zero_add] at here

theorem bytes_shift (mem : Memory) (start size : Nat) :
    Memory.bytes (fun index => mem (start + index)) 0 size = mem.bytes start size :=
  Memory.bytes_congr fun index _ => by rw [Nat.zero_add]

end Fields

/-! ## Frames that are accepted -/

/-- The node listens to an address: it is its own address, its solicited-node address or the
address of all nodes. -/
def NetState.ListensTo (s : NetState) (addr : Memory) : Prop :=
  sameBytes s.ip6LlAddr addr 16 ∨ sameBytes s.ip6SnmAddr addr 16 ∨ sameBytes ip6AllNodes addr 16

/-- A frame with a packet for this node is accepted. -/
theorem HoldsPacket.accepts {frame mac llMac src dst : Memory} {type : Nat} {payload : List UInt8}
    (holds : HoldsPacket frame mac llMac src dst type payload) {s : NetState}
    (short : payload.length < 2 ^ 16) (listens : s.ListensTo dst) :
    Accepts s frame (54 + payload.length) ∧ packetLength frame = payload.length := by
  have length : packetLength frame = payload.length := htons_loadLE_bigEndian short holds.length
  have address : ∀ own : Memory, sameBytes own dst 16 →
      sameBytes own (fun index => frame (38 + index)) 16 := by
    intro own same
    rw [sameBytes_iff, bytes_shift, holds.ip6Destination]
    exact sameBytes_iff.mp same
  have version : frame.loadLE 14 4 = 0x60 := by
    have bytes : frame.bytes 14 4 = [frame 14, frame 15, frame 16, frame 17] := rfl
    have fields := bytes.symm.trans holds.version
    simp only [List.cons.injEq, and_true] at fields
    simp [Memory.loadLE, fields]
  refine ⟨⟨by omega, loadLE_bigEndian (holds.protocol.trans (by decide)), by rw [version]; rfl,
    by omega, ?_⟩, length⟩
  exact listens.imp (address _) fun other => other.imp (address _) (address _)

/-- The state after the sender of the frame has been remembered. -/
def NetState.heard (s : NetState) (noted : List Extent) : NetState :=
  { s with
    remoteMacAddr := fun index => s.frame (6 + index)
    remoteIp6Addr := fun index => s.frame (22 + index)
    frameReads := noted }

/-- A packet goes to its protocol. -/
def receiveProtocol (fw : NetFirmware) (type len : Nat) : Net Unit :=
  if type = 17 then netUdp6Receive fw 14 54 len
  else if type = 58 then netIcmp6Receive fw 14 54 len
  else pure ()

theorem netPacketReceive_run (fw : NetFirmware) (len : Nat) (s : NetState) :
    netPacketReceive fw len s = receiveProtocol fw (s.frame.loadLE 20 1) len
      (s.heard ([⟨20, 1⟩, ⟨22, 16⟩, ⟨6, 6⟩] ++ s.frameReads)) := by
  rw [netPacketReceive, bind_of_ok (frameBytes_run _ _ _), bind_of_ok (frameBytes_run _ _ _),
    bind_of_ok (modify_run _ _), bind_of_ok (frameLE_run _ _ _)]
  rfl

/-- **A frame that is accepted goes to its protocol**, with its sender remembered. -/
theorem netEthReceive_accepted {fw : NetFirmware} {s : NetState} {len : Nat}
    (accepts : Accepts s s.frame len) :
    ∃ noted, netEthReceive fw len s =
      (do receiveProtocol fw (s.frame.loadLE 20 1) (packetLength s.frame); return true)
        (s.heard noted) := by
  obtain ⟨long, protocol, version, inside, mine⟩ := accepts
  refine ⟨[⟨20, 1⟩, ⟨22, 16⟩, ⟨6, 6⟩] ++
    ([⟨38, 16⟩, ⟨18, 2⟩, ⟨14, 4⟩, ⟨12, 2⟩] ++ s.frameReads), ?_⟩
  rw [netEthReceive, if_neg (Nat.not_lt.mpr long), bind_of_ok (frameLE_run _ _ _),
    if_neg (not_not.mpr protocol), bind_of_ok (frameLE_run _ _ _)]
  split
  · rename_i other
    exact absurd version other
  rw [bind_of_ok (frameLE_run _ _ _)]
  split
  · rename_i outside
    exact absurd inside (Nat.not_le.mpr outside)
  rw [bind_of_ok (frameBytes_run _ _ _), bind_of_ok (get_run _)]
  split
  · rename_i foreign
    exact absurd mine (foreign_iff.mp foreign)
  have checked : ∀ len noted, netPacketReceive fw len { s with frameReads := noted } =
      receiveProtocol fw (s.frame.loadLE 20 1) len
        (s.heard ([⟨20, 1⟩, ⟨22, 16⟩, ⟨6, 6⟩] ++ noted)) :=
    fun len noted => netPacketReceive_run fw len { s with frameReads := noted }
  exact bind_congr_run (checked (packetLength s.frame) _) _

/-! ## From sender to receiver -/

/-- A datagram arrived as it was sent: the receiver remembers the sender, and the ports, the
length and the data are those of the sender. -/
structure Arrived (sender receiver : NetState) (data : Memory) (n destPort sourcePort : Nat) :
    Prop where
  remoteMac : receiver.remoteMacAddr.bytes 0 6 = sender.llMacAddr.bytes 0 6
  remoteIp6 : receiver.remoteIp6Addr.bytes 0 16 = sender.ip6LlAddr.bytes 0 16
  sourcePort : htons (receiver.frame.loadLE 54 2) = sourcePort
  destPort : htons (receiver.frame.loadLE 56 2) = destPort
  length : htons (receiver.frame.loadLE 58 2) = n + 8
  payload : receiver.frame.bytes 62 n = data.bytes 0 n

/-- The fields of a frame that holds a datagram. -/
theorem HoldsPacket.udp {frame mac llMac src dst : Memory} {data : Memory}
    {n destPort sourcePort : Nat}
    (holds : HoldsPacket frame mac llMac src dst 17 (udpPacket src dst data n destPort sourcePort)) :
    frame.bytes 54 2 = bigEndian 2 sourcePort ∧ frame.bytes 56 2 = bigEndian 2 destPort ∧
      frame.bytes 58 2 = bigEndian 2 (n + 8) ∧
      frame.bytes 60 2 =
        bigEndian 2 (internetChecksum (udpCovered src dst data n destPort sourcePort)) ∧
      frame.bytes 62 n = data.bytes 0 n := by
  have packet := holds.data
  rw [udpPacket_length, show (54 : Nat) = 0 + 54 from rfl, bytes_udp, udpPacket, udpHeader] at packet
  simp only [List.append_assoc, Nat.zero_add] at packet
  obtain ⟨source, packet⟩ := List.append_inj packet (by simp)
  obtain ⟨dest, packet⟩ := List.append_inj packet (by simp)
  obtain ⟨length, packet⟩ := List.append_inj packet (by simp)
  obtain ⟨checksum, payload⟩ := List.append_inj packet (by simp)
  exact ⟨source, dest, length, checksum, payload⟩

/-- A part of the data of a datagram in the frame. -/
theorem HoldsPacket.udp_part {frame mac llMac src dst : Memory} {data : Memory}
    {n destPort sourcePort start size : Nat}
    (holds : HoldsPacket frame mac llMac src dst 17 (udpPacket src dst data n destPort sourcePort))
    (inside : start + size ≤ n) : frame.bytes (62 + start) size = data.bytes start size := by
  obtain ⟨-, -, -, -, whole⟩ := holds.udp
  apply Memory.bytes_congr
  intro index within
  have same := Memory.eq_of_bytes_eq whole (show start + index < n by omega)
  rwa [Nat.zero_add, ← Nat.add_assoc] at same

/-- A datagram in a frame for this node reaches `net_udp6_receive`. -/
theorem HoldsPacket.udp_received {node : NetFirmware} {s r : NetState} {mac dst data : Memory}
    {n destPort sourcePort : Nat} (small : n ≤ 1452) (destSmall : destPort < 2 ^ 16)
    (sourceSmall : sourcePort < 2 ^ 16) (listens : r.ListensTo dst)
    (holds : HoldsPacket r.frame mac s.llMacAddr s.ip6LlAddr dst 17
      (udpPacket s.ip6LlAddr dst data n destPort sourcePort)) :
    ∃ r', netEthReceive node (62 + n) r =
        (do netUdp6Receive node 14 54 (n + 8); return true) r' ∧
      r'.frame = r.frame ∧ Arrived s r' data n destPort sourcePort ∧
      (destPort = 57777 → netUdp6Receive node 14 54 (n + 8) r' =
        netbootCmdReceive node 62 (r'.withRead 56 2)) := by
  obtain ⟨accepts, length⟩ := holds.accepts (by rw [udpPacket_length]; omega) listens
  rw [udpPacket_length] at accepts length
  have total : 54 + (n + 8) = 62 + n := by omega
  rw [total] at accepts
  obtain ⟨noted, received⟩ := @netEthReceive_accepted node r _ accepts
  have protocol : r.frame.loadLE 20 1 = 17 := loadLE_one holds.nextHeader
  obtain ⟨source, dest, size, -, payload⟩ := holds.udp
  have port : htons (r.frame.loadLE 56 2) = destPort := htons_loadLE_bigEndian destSmall dest
  refine ⟨r.heard noted, ?_, rfl, ?_, ?_⟩
  · rw [received, protocol, length]
    rfl
  · exact {
      remoteMac := (bytes_shift _ _ _).trans holds.source
      remoteIp6 := (bytes_shift _ _ _).trans holds.ip6Source
      sourcePort := htons_loadLE_bigEndian sourceSmall source
      destPort := port
      length := htons_loadLE_bigEndian (by omega) size
      payload := payload }
  · intro netboot
    have matched : htons ((r.heard noted).frame.loadLE (54 + 2) 2) = 57777 := port.trans netboot
    rw [netUdp6Receive, bind_of_ok (frameLE_run _ _ _), if_pos matched]

/-- **A datagram arrives as it was sent.** For a payload that fits a frame, any ports and any
address that the sender resolves, the frame handed to `Transmit` fits the link. A node that
listens to the address takes it, remembers the sender, and calls `net_udp6_receive` with the
length of the datagram, its ports and its data. On the netboot port the data is the message. -/
theorem udp_round_trip (fw : NetFirmware) (s : NetState) (data dst mac : Memory)
    (n destPort sourcePort : Nat) (small : n ≤ 1452) (destSmall : destPort < 2 ^ 16)
    (sourceSmall : sourcePort < 2 ^ 16) (resolves : netIp6Resolve dst s = .ok (some mac) s) :
    ∃ t, netUdp6Send fw data n dst destPort sourcePort s = .ok () t ∧
      ((s.ethBufpool = 0 ∧ t = s) ∨
        ∃ sent, t.transmissions = sent :: s.transmissions ∧ sent.bytes.length = 62 + n ∧
          62 + n ≤ ethMtu ∧
          ∀ (node : NetFirmware) (r : NetState), r.frame.bytes 0 (62 + n) = sent.bytes →
            r.ListensTo dst →
            ∃ r', netEthReceive node (62 + n) r =
                (do netUdp6Receive node 14 54 (n + 8); return true) r' ∧
              r'.frame = r.frame ∧ Arrived s r' data n destPort sourcePort ∧
              (destPort = 57777 → netUdp6Receive node 14 54 (n + 8) r' =
                netbootCmdReceive node 62 (r'.withRead 56 2))) := by
  have found : s.resolve dst = some mac := by
    rw [netIp6Resolve_run] at resolves
    cases known : s.resolve dst with
    | none => rw [known] at resolves; cases resolves
    | some other => rw [known] at resolves; cases resolves; rfl
  by_cases empty : s.ethBufpool = 0
  · exact ⟨s, netUdp6Send_empty empty data n destPort sourcePort, .inl ⟨empty, rfl⟩⟩
  obtain ⟨t, sent, run, transmits, bytes⟩ :=
    netUdp6Send_frame empty found data destPort sourcePort (show n + 8 < 2 ^ 16 by omega)
  have total : 62 + n = 54 + (udpPacket s.ip6LlAddr dst data n destPort sourcePort).length := by
    rw [udpPacket_length]
    omega
  refine ⟨t, run, .inr ⟨sent, transmits, ?_, ?_, ?_⟩⟩
  · rw [bytes, packetFrame_length, total]
  · unfold ethMtu
    omega
  intro node r arrives listens
  rw [bytes, total] at arrives
  exact (packetFrame_fields arrives).udp_received small destSmall sourceSmall listens

/-- A payload of four bytes. -/
def samplePayload : Memory := fun index => [1, 2, 3, 4].getD index 0

theorem udp_round_trip_sample :
    ∃ t sent, netUdp6Send sampleNetFirmware samplePayload 4 ip6AllNodes 57778 57777 sampleNetState =
        .ok () t ∧ t.transmissions = [sent] ∧ sent.bytes.length = 66 := by
  obtain ⟨t, run, nothing | ⟨sent, transmits, length, -⟩⟩ :=
    udp_round_trip sampleNetFirmware sampleNetState samplePayload ip6AllNodes
      (netIp6MulticastFromIp6 ip6AllNodes) 4 57778 57777 (by decide) (by decide) (by decide) rfl
  · exact absurd nothing.1 (by decide)
  · exact ⟨t, sent, run, transmits, length⟩

/-! ## The checksum of a datagram -/

/-- The one's-complement sum that a receiver forms over the pseudo-header and the packet of a
frame. It is all ones for a packet with a valid checksum. -/
def upperLayerSum (frame : Memory) (type : Nat) : Nat :=
  onesSum (wordsBE (pseudoHeader frame 14 (packetLength frame) type ++
    frame.bytes 54 (packetLength frame)))

section Checksum

variable {frame mac llMac src dst data : Memory} {n destPort sourcePort : Nat}

/-- **The checksum of a datagram verifies at the receiver.** -/
theorem HoldsPacket.udp_verifies (short : n + 8 < 2 ^ 16)
    (holds : HoldsPacket frame mac llMac src dst 17 (udpPacket src dst data n destPort sourcePort)) :
    upperLayerSum frame 17 = 0xFFFF := by
  have length : packetLength frame = n + 8 := by
    have field := holds.length
    rw [udpPacket_length] at field
    exact htons_loadLE_bigEndian short field
  have addresses : frame.bytes (14 + 8) 32 = src.bytes 0 16 ++ dst.bytes 0 16 := by
    rw [show 32 = 16 + 16 from rfl, frame.bytes_add]
    exact congrArg₂ (· ++ ·) holds.ip6Source holds.ip6Destination
  have packet : frame.bytes 54 (n + 8) = udpPacket src dst data n destPort sourcePort := by
    have whole := holds.data
    rwa [udpPacket_length] at whole
  have even : (pseudoBytes src dst (n + 8) 17 ++ (bigEndian 2 sourcePort ++ (bigEndian 2 destPort ++
      bigEndian 2 (n + 8)))).length % 2 = 0 := by
    simp [pseudoBytes]
  have verified := onesSum_with_checksum even
    (.inl (rfl : bigEndian 2 0 = [0, 0]) : _ ∨ (bigEndian 2 0 = [0] ∧ data.bytes 0 n = []))
  rw [upperLayerSum, length, pseudoHeader_eq _ _ addresses, packet, udpPacket, udpHeader]
  simpa only [udpCovered, udpHeader, List.append_assoc] using verified

/-- The checksum of a datagram is zero exactly when its words add up to a multiple of 65535. -/
theorem internetChecksum_udp_eq_zero :
    internetChecksum (udpCovered src dst data n destPort sourcePort) = 0 ↔
      0xFFFF ∣ (wordsBE (udpCovered src dst data n destPort sourcePort)).sum := by
  have positive : 0 < (wordsBE (udpCovered src dst data n destPort sourcePort)).sum := by
    have even : (src.bytes 0 16 ++ dst.bytes 0 16 ++ bigEndian 4 (n + 8)).length % 2 = 0 := by simp
    have four : (bigEndian 4 17).length % 2 = 0 := by simp
    rw [udpCovered, pseudoBytes, List.append_assoc, wordsBE_append even, wordsBE_append four,
      wordsBE_bigEndian_four (by decide)]
    simp only [List.sum_append, List.sum_cons]
    omega
  have small := residue_lt (wordsBE (udpCovered src dst data n destPort sourcePort)).sum
  rw [← residue_eq_ones positive, internetChecksum, onesSum_wordsBE]
  omega

theorem htons_eq_zero {value : Nat} (small : value < 2 ^ 16) :
    htons value = 0 ↔ value = 0 := swapBytes_eq_zero small

end Checksum

/-- A frame that `net_udp6_send` handed over carries the frame of its packet. -/
theorem netUdp6Send_sent {fw : NetFirmware} {s t : NetState} {data dst : Memory}
    {len destPort sourcePort : Nat} {sent : Transmission} (short : len + 8 < 2 ^ 16)
    (run : netUdp6Send fw data len dst destPort sourcePort s = .ok () t)
    (transmits : t.transmissions = sent :: s.transmissions) :
    ∃ mac, sent.bytes = packetFrame mac s.llMacAddr s.ip6LlAddr dst 17
      (udpPacket s.ip6LlAddr dst data len destPort sourcePort) := by
  have nothing : t.transmissions ≠ s.transmissions := by
    rw [transmits]
    exact List.cons_ne_self _ _
  by_cases empty : s.ethBufpool = 0
  · rw [netUdp6Send_empty empty] at run
    cases run
    exact absurd rfl nothing
  cases found : s.resolve dst with
  | none =>
      rw [netUdp6Send_none empty found] at run
      cases run
      exact absurd rfl nothing
  | some mac =>
      obtain ⟨other, frame, again, others, bytes⟩ :=
        netUdp6Send_frame empty found data destPort sourcePort short
      rw [run] at again
      cases again
      rw [transmits] at others
      cases others
      exact ⟨mac, bytes⟩

/-- **UDP checksums.** A datagram that `net_udp6_send` hands to `Transmit` has a checksum that is
not zero and that verifies at the receiver, exactly when the 16-bit words of its pseudo-header, its
header without checksum and its data do not add up to a multiple of 65535. -/
theorem udp_checksum_nonzero_iff (fw : NetFirmware) (s t : NetState) (data dst : Memory)
    (len destPort sourcePort : Nat) (sent : Transmission) (short : len + 8 < 2 ^ 16)
    (run : netUdp6Send fw data len dst destPort sourcePort s = .ok () t)
    (transmits : t.transmissions = sent :: s.transmissions) :
    (∀ frame : Memory, frame.bytes 0 sent.bytes.length = sent.bytes →
        frame.loadLE 60 2 ≠ 0 ∧ upperLayerSum frame 17 = 0xFFFF) ↔
      ¬ 0xFFFF ∣ (wordsBE (udpCovered s.ip6LlAddr dst data len destPort sourcePort)).sum := by
  obtain ⟨mac, bytes⟩ := netUdp6Send_sent short run transmits
  have fields : ∀ frame : Memory, frame.bytes 0 sent.bytes.length = sent.bytes →
      HoldsPacket frame mac s.llMacAddr s.ip6LlAddr dst 17
        (udpPacket s.ip6LlAddr dst data len destPort sourcePort) := by
    intro frame holds
    rw [bytes, packetFrame_length] at holds
    exact packetFrame_fields holds
  have zero : ∀ frame : Memory, frame.bytes 0 sent.bytes.length = sent.bytes →
      (frame.loadLE 60 2 = 0 ↔
        0xFFFF ∣ (wordsBE (udpCovered s.ip6LlAddr dst data len destPort sourcePort)).sum) := by
    intro frame holds
    obtain ⟨-, -, -, checksum, -⟩ := (fields frame holds).udp
    rw [loadLE_bigEndian checksum, htons_eq_zero (internetChecksum_lt _),
      internetChecksum_udp_eq_zero]
  constructor
  · intro valid
    have holds := bytes_getD sent.bytes
    exact fun divides => (valid _ holds).1 ((zero _ holds).mpr divides)
  · intro odd frame holds
    exact ⟨fun field => odd ((zero frame holds).mp field), (fields frame holds).udp_verifies short⟩

theorem udp_checksum_nonzero_iff_sample :
    ∃ (t : NetState) (sent : Transmission), t.transmissions = [sent] ∧
      ((∀ frame : Memory, frame.bytes 0 sent.bytes.length = sent.bytes →
          frame.loadLE 60 2 ≠ 0 ∧ upperLayerSum frame 17 = 0xFFFF) ↔
        ¬ 0xFFFF ∣ (wordsBE (udpCovered sampleNetState.ip6LlAddr ip6AllNodes samplePayload 4 57778
          57777)).sum) := by
  have short : 4 + 8 < 2 ^ 16 := by decide
  obtain ⟨t, sent, run, transmits, -⟩ := @netUdp6Send_frame sampleNetFirmware
    sampleNetState ip6AllNodes _ (by decide) rfl samplePayload 4 57778 57777 short
  exact ⟨t, sent, transmits, udp_checksum_nonzero_iff sampleNetFirmware sampleNetState t samplePayload
    ip6AllNodes 4 57778 57777 sent short run transmits⟩

/-- A payload of two bytes with which the words of a datagram add up to a multiple of 65535. -/
def zeroSumPayload : Memory := fun index => [0x45, 0x7A].getD index 0

/-- The datagram with this payload is sent with a checksum of zero. -/
theorem udp_checksum_zero :
    ¬ ∀ (fw : NetFirmware) (s t : NetState) (data dst : Memory) (len destPort sourcePort : Nat)
      (sent : Transmission), len + 8 < 2 ^ 16 →
        netUdp6Send fw data len dst destPort sourcePort s = .ok () t →
        t.transmissions = sent :: s.transmissions →
        ∀ frame : Memory, frame.bytes 0 sent.bytes.length = sent.bytes →
          frame.loadLE 60 2 ≠ 0 ∧ upperLayerSum frame 17 = 0xFFFF := by
  intro always
  have short : 2 + 8 < 2 ^ 16 := by decide
  obtain ⟨t, sent, run, transmits, bytes⟩ := @netUdp6Send_frame sampleNetFirmware
    sampleNetState ip6AllNodes _ (by decide) rfl zeroSumPayload 2 57778 57777 short
  let frame : Memory := fun index => sent.bytes.getD index 0
  have holds : frame.bytes 0 sent.bytes.length = sent.bytes := bytes_getD sent.bytes
  refine (always _ _ _ _ _ _ _ _ _ short run transmits frame holds).1 ?_
  rw [bytes, packetFrame_length] at holds
  obtain ⟨-, -, -, checksum, -⟩ := (packetFrame_fields holds).udp
  rw [loadLE_bigEndian checksum, internetChecksum_udp_eq_zero.mpr (by decide)]
  rfl

end VineyardLoader
