import VineyardLoader.Net.Sends

/-!
# What the node sends

Whatever arrives, and whatever the firmware answers, every frame that the loop hands to the driver
is a proper one: it comes from the addresses of the node, its lengths agree with its size, which
fits an Ethernet frame, its checksum verifies, and it is an advertisement, an acknowledgement, an
echo reply or a neighbor advertisement (`netPollLoop_emits`). The exceptions are the replies to
echo requests that are too short for a type or a checksum: so are the replies.

No such frame is an answer to ask for one: another loader that receives it sends nothing
(`netPollLoop_emissions_unanswered`), so loaders on one network never keep each other busy. Only
for a reply of no bytes this depends on what is behind it in the receive buffer.
-/

set_option autoImplicit false

namespace VineyardLoader

/-! ## Frames of a node -/

/-- The frames of the node with the given addresses. -/
inductive OwnFrame (mac ip6 : Memory) : List UInt8 → Prop
  | message {dstMac dst message : Memory} {len : Nat} (own : OwnMessage message len)
      (multicast : dst 0 = 0xFF → dstMac = netIp6MulticastFromIp6 dst) :
      OwnFrame mac ip6
        (packetFrame dstMac mac ip6 dst 17 (udpPacket ip6 dst message len 57778 57777))
  | icmp {dstMac dst message : Memory} {length : Nat} (own : OwnIcmp message)
      (short : length ≤ 1460) (multicast : dst 0 = 0xFF → dstMac = netIp6MulticastFromIp6 dst) :
      OwnFrame mac ip6 (packetFrame dstMac mac ip6 dst 58 (icmpMessage ip6 dst message length))

/-- The state has the addresses of an earlier one, and what was sent since are frames of the node. -/
def Emitted (start s : NetState) : Prop :=
  s.station = start.station ∧ ∃ new, s.transmissions = new ++ start.transmissions ∧
    ∀ sent ∈ new, OwnFrame start.llMacAddr start.ip6LlAddr sent.bytes

section Sends

variable {fw : NetFirmware} {start s t : NetState}

theorem NetState.resolve_multicast {dst mac : Memory} (found : s.resolve dst = some mac) :
    dst 0 = 0xFF → mac = netIp6MulticastFromIp6 dst := by
  intro multicast
  rw [NetState.resolve, if_pos multicast] at found
  exact (Option.some.inj found).symm

theorem OwnMessage.short {message : Memory} {len : Nat} (own : OwnMessage message len) :
    len ≤ 32 := by
  rcases own.cmd with ⟨-, rfl⟩ | ⟨-, rfl⟩
  · decide
  · decide

/-- A frame of the node is handed to the driver. -/
theorem Emitted.transmitted {data len : Nat} (emitted : Emitted start s)
    (own : OwnFrame s.llMacAddr s.ip6LlAddr (s.mem.bytes data len)) :
    Emitted start (s.transmitted fw data len) := by
  obtain ⟨station, new, transmissions, owns⟩ := emitted
  have mac : s.llMacAddr = start.llMacAddr := congrArg (·.1) station
  have ip6 : s.ip6LlAddr = start.ip6LlAddr := congrArg (·.2.1) station
  rw [mac, ip6] at own
  refine ⟨?_, ⟨data, s.mem.bytes data len, fw.transmit s data len⟩ :: new, ?_,
    List.forall_mem_cons.mpr ⟨own, owns⟩⟩
  · rw [← station, NetState.transmitted]
    split <;> rfl
  · rw [NetState.transmitted_transmissions, transmissions, List.cons_append]

theorem emitted_survivesSends (fw : NetFirmware) (start : NetState) :
    SurvivesSends fw (Emitted start) where
  wire s t same emitted := by
    obtain ⟨station, new, transmissions, owns⟩ := emitted
    exact ⟨(congrArg (·.1) same).trans station, new,
      (congrArg (·.2.2.2.2.2) same).trans transmissions, owns⟩
  message s message len own emitted := by
    by_cases empty : s.ethBufpool = 0
    · rw [netUdp6Send_empty empty]
      exact emitted
    cases found : s.resolve s.messageAddress with
    | none =>
        rw [netUdp6Send_none empty found]
        exact emitted
    | some mac =>
        rw [netUdp6Send_some empty found]
        refine Emitted.transmitted emitted ?_
        have short := own.short
        have frame := s.popped.withUdp_bytes (s.ethBufpool + 8) mac s.messageAddress message 57778
          57777 (show len + 8 < 2 ^ 16 by omega)
        exact frame ▸ OwnFrame.message own (NetState.resolve_multicast found)
  icmp s data source length dst reads own emitted := by
    by_cases empty : s.ethBufpool = 0
    · rw [netIcmp6Send_empty empty]
      exact emitted
    by_cases long : 1460 < length
    · rw [netIcmp6Send_long empty data long]
      exact emitted
    have short := Nat.not_lt.mp long
    cases found : s.resolve dst with
    | none =>
        rw [netIcmp6Send_none empty found data short]
        exact emitted
    | some mac =>
        obtain ⟨noted, run⟩ := @netIcmp6Send_some fw s dst mac empty found data source reads length short
        rw [run]
        refine Emitted.transmitted emitted ?_
        have frame := s.popped.withIcmp_bytes (s.ethBufpool + 8) mac dst source
          (show length < 2 ^ 16 by omega)
        exact frame ▸ OwnFrame.icmp own short (NetState.resolve_multicast found)

/-- Nothing is sent when a buffer is taken back. -/
theorem takeBack_sends (txBuf : Nat) :
    Keeps (fun s : PollState => (s.net.station, s.net.transmissions)) (takeBack txBuf) := by
  refine Keeps.get.bind fun _ => Keeps.ite (fun _ => ?_) fun _ => Keeps.pure _
  refine Keeps.ite (fun _ => ?_) fun _ => Keeps.pure _
  exact Keeps.bind (Keeps.modify fun _ => rfl) fun _ _ => rfl

/-- The frames of a loop are frames of the node. -/
theorem emitted_loop (turns : List PollFirmware) (s : PollState) :
    Emitted s.net (finalState (netPollLoop turns s)).net := by
  have survives : ∀ fw ∈ turns, SurvivesTurns fw fun u => Emitted s.net u.net := by
    refine fun fw _ => ⟨fun _ => emitted_survivesSends fw.net s.net, fun _ emitted => emitted, ?_⟩
    rintro u txBuf - ⟨station, new, transmissions, owns⟩
    have kept := takeBack_sends txBuf u
    exact ⟨(congrArg Prod.fst kept).trans station, new, (congrArg Prod.snd kept).trans transmissions,
      owns⟩
  exact preserves_self_iff.mp (netPollLoop_preserves survives) s ⟨rfl, [], rfl, nofun⟩

end Sends

/-! ## As a receiver sees them -/

/-- A datagram with a netboot message of a loader. -/
structure ProperDatagram (frame : Memory) (size : Nat) : Prop where
  nextHeader : frame.loadLE 20 1 = 17
  sourcePort : htons (frame.loadLE 54 2) = 57777
  destPort : htons (frame.loadLE 56 2) = 57778
  length : htons (frame.loadLE 58 2) = size - 54
  checksum : upperLayerSum frame 17 = 0xFFFF
  message : (messageCmd frame = cmdAdvertise ∧ size = 78) ∨ (messageCmd frame = cmdAck ∧ size = 94)
  messageLength : messageLength frame = size - 62

/-- An ICMPv6 message of a loader. A reply to an echo request of no bytes has no type, and one to a
request of less than four bytes has no checksum. -/
structure ProperIcmp (frame : Memory) (size : Nat) : Prop where
  nextHeader : frame.loadLE 20 1 = 58
  type : 54 < size → frame 54 = 129 ∨ frame 54 = 136
  checksum : 58 ≤ size → upperLayerSum frame 58 = 0xFFFF

/-- A frame of a node in the receive buffer of another one. -/
structure ProperFrame (s : NetState) (frame : Memory) (size : Nat) : Prop where
  fits : 54 ≤ size ∧ size ≤ ethMtu
  source : frame.bytes 6 6 = s.llMacAddr.bytes 0 6
  length : packetLength frame = size - 54
  hopLimit : frame.loadLE 21 1 = 255
  ip6Source : frame.bytes 22 16 = s.ip6LlAddr.bytes 0 16
  multicast : frame 38 = 0xFF → frame.bytes 0 6 = [0x33, 0x33] ++ frame.bytes 50 4
  accepted : ∀ node : NetState, node.ListensTo (fun index => frame (38 + index)) →
    Accepts node frame size
  payload : ProperDatagram frame size ∨ ProperIcmp frame size

section Proper

variable {frame dstMac mac src dst message : Memory} {type len : Nat} {payload : List UInt8}

theorem HoldsPacket.listens (holds : HoldsPacket frame dstMac mac src dst type payload)
    {node : NetState} (listens : node.ListensTo fun index => frame (38 + index)) :
    node.ListensTo dst := by
  have address : ∀ own : Memory, sameBytes own (fun index => frame (38 + index)) 16 →
      sameBytes own dst 16 := by
    intro own same
    rw [sameBytes_iff, bytes_shift, holds.ip6Destination] at same
    exact sameBytes_iff.mpr same
  exact listens.imp (address _) fun other => other.imp (address _) (address _)

/-- The hardware address of a multicast address. -/
theorem HoldsPacket.multicast (holds : HoldsPacket frame dstMac mac src dst type payload)
    (multicast : dst 0 = 0xFF → dstMac = netIp6MulticastFromIp6 dst) (group : frame 38 = 0xFF) :
    frame.bytes 0 6 = [0x33, 0x33] ++ frame.bytes 50 4 := by
  have byte : ∀ index, index < 16 → frame (38 + index) = dst index := by
    intro index inside
    have same := Memory.eq_of_bytes_eq holds.ip6Destination inside
    rwa [Nat.zero_add] at same
  rw [holds.destination, multicast ((byte 0 (by decide)).symm.trans group)]
  have last : frame.bytes 50 4 = [dst 12, dst 13, dst 14, dst 15] := by
    rw [← byte 12 (by decide), ← byte 13 (by decide), ← byte 14 (by decide), ← byte 15 (by decide)]
    rfl
  rw [last]
  rfl

/-- **The checksum of an ICMPv6 message verifies at the receiver.** -/
theorem HoldsPacket.icmp_verifies {rest : Nat} (short : 4 + rest < 2 ^ 16)
    (zero : message.bytes 2 2 = [0, 0])
    (holds : HoldsPacket frame dstMac mac src dst 58 (icmpMessage src dst message (4 + rest))) :
    upperLayerSum frame 58 = 0xFFFF := by
  have length : packetLength frame = 4 + rest := by
    have field := holds.length
    rw [icmpMessage_length] at field
    exact htons_loadLE_bigEndian short field
  have addresses : frame.bytes (14 + 8) 32 = src.bytes 0 16 ++ dst.bytes 0 16 := by
    rw [show 32 = 16 + 16 from rfl, frame.bytes_add]
    exact congrArg₂ (· ++ ·) holds.ip6Source holds.ip6Destination
  have data : frame.bytes 54 (4 + rest) = icmpMessage src dst message (4 + rest) := by
    have whole := holds.data
    rwa [icmpMessage_length] at whole
  have parts : ∀ mem : Memory, mem.bytes 0 (4 + rest) =
      mem.bytes 0 2 ++ (mem.bytes 2 2 ++ mem.bytes 4 rest) := by
    intro mem
    rw [show 4 + rest = 2 + (2 + rest) by omega, mem.bytes_add, mem.bytes_add]
  have even : (pseudoBytes src dst (4 + rest) 58 ++ message.bytes 0 2).length % 2 = 0 := by
    simp [pseudoBytes]
  have verified := onesSum_with_checksum even
    (.inl zero : _ ∨ (message.bytes 2 2 = [0] ∧ message.bytes 4 rest = []))
  rw [upperLayerSum, length, pseudoHeader_eq _ _ addresses, data, icmpMessage, parts, parts,
    bytes_storeLE_swapBytes]
  simp only [Memory.storeLE]
  rw [Memory.bytes_overwrite_of_disjoint _ (by omega), Memory.bytes_overwrite_of_disjoint _ (by omega)]
  simpa only [List.append_assoc] using verified

/-- The headers of a frame of the node. -/
theorem HoldsPacket.proper {s : NetState}
    (holds : HoldsPacket frame dstMac s.llMacAddr s.ip6LlAddr dst type payload)
    (short : payload.length ≤ 1460)
    (multicast : dst 0 = 0xFF → dstMac = netIp6MulticastFromIp6 dst)
    (isPayload : ProperDatagram frame (54 + payload.length) ∨
      ProperIcmp frame (54 + payload.length)) :
    ProperFrame s frame (54 + payload.length) where
  fits := ⟨Nat.le_add_right _ _, by unfold ethMtu; omega⟩
  source := holds.source
  length := by
    rw [Nat.add_sub_cancel_left]
    exact htons_loadLE_bigEndian (by omega) holds.length
  hopLimit := loadLE_one holds.hopLimit
  ip6Source := holds.ip6Source
  multicast := holds.multicast multicast
  accepted _ listens := (holds.accepts (by omega) (holds.listens listens)).1
  payload := isPayload

theorem HoldsPacket.properDatagram (own : OwnMessage message len)
    (holds : HoldsPacket frame dstMac mac src dst 17 (udpPacket src dst message len 57778 57777)) :
    ProperDatagram frame (54 + (len + 8)) := by
  obtain ⟨sourcePort, destPort, length, -, -⟩ := holds.udp
  have short := own.short
  have long : 16 ≤ len := by
    rcases own.cmd with ⟨-, rfl⟩ | ⟨-, rfl⟩
    · decide
    · decide
  have cmd : messageCmd frame = message.loadLE 0 4 :=
    Memory.loadLE_of_bytes_eq (holds.udp_part (show 0 + 4 ≤ len by omega))
  have isLength : messageLength frame = message.load64 8 :=
    Memory.loadLE_of_bytes_eq (holds.udp_part (show 8 + 8 ≤ len by omega))
  refine ⟨loadLE_one holds.nextHeader, htons_loadLE_bigEndian (by decide) sourcePort,
    htons_loadLE_bigEndian (by decide) destPort, ?_, holds.udp_verifies (by omega), ?_, ?_⟩
  · rw [Nat.add_sub_cancel_left]
    exact htons_loadLE_bigEndian (by omega) length
  · rw [cmd]
    exact own.cmd.imp (fun both => ⟨both.1, by rw [both.2]⟩) fun both => ⟨both.1, by rw [both.2]⟩
  · rw [isLength, own.length]
    omega

theorem HoldsPacket.properIcmp (own : OwnIcmp message) (short : len ≤ 1460)
    (holds : HoldsPacket frame dstMac mac src dst 58 (icmpMessage src dst message len)) :
    ProperIcmp frame (54 + len) := by
  refine ⟨loadLE_one holds.nextHeader, fun some_ => ?_, fun long => ?_⟩
  · have data := holds.data
    rw [icmpMessage_length, icmpMessage] at data
    have first := Memory.eq_of_bytes_eq data (show 0 < len by omega)
    rw [Nat.add_zero, Memory.storeLE, Memory.overwrite_outside _ (by omega)] at first
    rw [first]
    exact own.type
  · obtain ⟨rest, rfl⟩ := Nat.exists_eq_add_of_le (show 4 ≤ len by omega)
    exact holds.icmp_verifies (by omega) own.checksum

/-- A frame of the node is a proper one wherever it is received. -/
theorem OwnFrame.proper {s : NetState} {bytes : List UInt8}
    (own : OwnFrame s.llMacAddr s.ip6LlAddr bytes) (here : frame.bytes 0 bytes.length = bytes) :
    ProperFrame s frame bytes.length := by
  cases own with
  | @message dstMac dst message len own multicast =>
      have short := own.short
      rw [packetFrame_length] at here ⊢
      have holds := packetFrame_fields here
      refine holds.proper ?_ multicast ?_
      · rw [udpPacket_length]
        omega
      · rw [udpPacket_length]
        exact .inl (holds.properDatagram own)
  | @icmp dstMac dst message len own short multicast =>
      rw [packetFrame_length] at here ⊢
      have holds := packetFrame_fields here
      refine holds.proper ?_ multicast ?_
      · rwa [icmpMessage_length]
      · rw [icmpMessage_length]
        exact .inr (holds.properIcmp own short)

end Proper

/-- A packet that is no netboot message, echo request or solicitation is only looked at. -/
theorem receiveProtocol_unanswered {fw : NetFirmware} {u : NetState} (noNetboot : ¬ IsNetboot u.frame)
    (noRequest : u.frame.loadLE 20 1 = 58 →
      u.frame.loadLE 54 1 ≠ 128 ∧ u.frame.loadLE 54 1 ≠ 135) (n : Nat) :
    ∃ noted, receiveProtocol fw (u.frame.loadLE 20 1) n u = .ok () { u with frameReads := noted } := by
  rw [receiveProtocol]
  by_cases udp : u.frame.loadLE 20 1 = 17
  · refine ⟨⟨56, 2⟩ :: u.frameReads, ?_⟩
    rw [if_pos udp, netUdp6Receive, bind_of_ok (frameLE_run _ _ _),
      if_neg fun port : htons (u.frame.loadLE (54 + 2) 2) = 57777 => noNetboot ⟨udp, port⟩]
    rfl
  · rw [if_neg udp]
    by_cases icmp : u.frame.loadLE 20 1 = 58
    · rw [if_pos icmp]
      obtain ⟨noEcho, noSolicitation⟩ := noRequest icmp
      exact netIcmp6Receive_other noEcho noSolicitation
    · rw [if_neg icmp]
      exact ⟨u.frameReads, rfl⟩

/-! ## The loop -/

section Loop

variable (turns : List PollFirmware) (s : PollState)

/-- **Every frame that the loop sends is a proper one**, whatever arrives and wherever the loop
stops. Replies to echo requests of less than four bytes have no checksum. -/
theorem netPollLoop_emits :
    ∃ new, (finalState (netPollLoop turns s)).net.transmissions = new ++ s.net.transmissions ∧
      ∀ sent ∈ new, ∀ frame : Memory, frame.bytes 0 sent.bytes.length = sent.bytes →
        ProperFrame s.net frame sent.bytes.length := by
  obtain ⟨-, new, transmissions, owns⟩ := emitted_loop turns s
  exact ⟨new, transmissions, fun sent member frame here => (owns sent member).proper here⟩

/-- The sample sends four acknowledgements, an echo reply and an advertisement. -/
theorem netPollLoop_emits_sample :
    ∃ new, (finalState (netPollLoop sampleTurns samplePollReady)).net.transmissions = new ++ [] ∧
      (new.map fun sent => sent.bytes.length) = [94, 94, 62, 94, 94, 78] ∧
      ∀ sent ∈ new, ∀ frame : Memory, frame.bytes 0 sent.bytes.length = sent.bytes →
        ProperFrame samplePollReady.net frame sent.bytes.length := by
  obtain ⟨new, transmissions, proper⟩ := netPollLoop_emits sampleTurns samplePollReady
  refine ⟨new, transmissions, ?_, proper⟩
  have sent := (transmissions.trans (List.append_nil new)).symm
  rw [sent]
  decide +kernel

/-- **No loader answers what the loop sends.** Another node that receives such a frame sends
nothing, and takes no netboot message from it. A frame of no message is taken for what is behind
it in the receive buffer, which then is to be no echo request and no solicitation. -/
theorem netPollLoop_emissions_unanswered :
    ∃ new, (finalState (netPollLoop turns s)).net.transmissions = new ++ s.net.transmissions ∧
      ∀ sent ∈ new, ∀ (fw : NetFirmware) (node : NetState),
        node.frame.bytes 0 sent.bytes.length = sent.bytes →
        (sent.bytes.length = 54 → node.frame 54 ≠ 128 ∧ node.frame 54 ≠ 135) →
        ∃ answer after, netEthReceive fw sent.bytes.length node = .ok answer after ∧
          after.transmissions = node.transmissions ∧ after.receiver = node.receiver := by
  obtain ⟨-, new, transmissions, owns⟩ := emitted_loop turns s
  refine ⟨new, transmissions, fun sent member fw node here behind => ?_⟩
  have proper := (owns sent member).proper here
  have noNetboot : ¬ IsNetboot node.frame := by
    rintro ⟨udp, port⟩
    rcases proper.payload with datagram | icmp
    · exact absurd (datagram.destPort.symm.trans port) (by decide)
    · exact absurd (icmp.nextHeader.symm.trans udp) (by decide)
  have noRequest : node.frame.loadLE 20 1 = 58 →
      node.frame.loadLE 54 1 ≠ 128 ∧ node.frame.loadLE 54 1 ≠ 135 := by
    intro isIcmp
    have first : node.frame.loadLE 54 1 = (node.frame 54).toNat := by simp [Memory.loadLE]
    have type : node.frame 54 ≠ 128 ∧ node.frame 54 ≠ 135 := by
      rcases proper.payload with datagram | icmp
      · exact absurd (datagram.nextHeader.symm.trans isIcmp) (by decide)
      · rcases Nat.eq_or_lt_of_le proper.fits.1 with empty | some_
        · exact behind empty.symm
        · rcases icmp.type some_ with type | type
          · rw [type]
            decide
          · rw [type]
            decide
    rw [first]
    exact type.imp (fun other same => other (UInt8.toNat_inj.mp same))
      fun other same => other (UInt8.toNat_inj.mp same)
  have nothing : node.message? node.frame sent.bytes.length = none :=
    if_neg fun both => noNetboot both.2
  obtain ⟨answer, after, run, kept⟩ := @netEthReceive_other fw node sent.bytes.length nothing
  refine ⟨answer, after, run, ?_, congrArg Prod.fst kept⟩
  by_cases accepts : Accepts node node.frame sent.bytes.length
  · obtain ⟨noted, same⟩ := @netEthReceive_accepted fw node sent.bytes.length accepts
    obtain ⟨later, looked⟩ := @receiveProtocol_unanswered fw (node.heard noted) noNetboot noRequest
      (packetLength node.frame)
    rw [run] at same
    obtain ⟨⟨⟩, middle, received, done⟩ := bind_eq_ok.mp same.symm
    cases done
    rw [show receiveProtocol fw (node.frame.loadLE 20 1) (packetLength node.frame) (node.heard noted) =
      _ from looked] at received
    cases received
    rfl
  · obtain ⟨other, noted, same⟩ := @netEthReceive_rejected fw node sent.bytes.length accepts
    rw [run] at same
    cases same
    rfl

/-- No loader answers what the sample sends. -/
theorem netPollLoop_emissions_unanswered_sample :
    ∃ new, (finalState (netPollLoop sampleTurns samplePollReady)).net.transmissions = new ++ [] ∧
      (new.map fun sent => sent.bytes.length) = [94, 94, 62, 94, 94, 78] ∧
      ∀ sent ∈ new, ∀ (fw : NetFirmware) (node : NetState),
        node.frame.bytes 0 sent.bytes.length = sent.bytes →
        (sent.bytes.length = 54 → node.frame 54 ≠ 128 ∧ node.frame 54 ≠ 135) →
        ∃ answer after, netEthReceive fw sent.bytes.length node = .ok answer after ∧
          after.transmissions = node.transmissions ∧ after.receiver = node.receiver := by
  obtain ⟨new, transmissions, unanswered⟩ :=
    netPollLoop_emissions_unanswered sampleTurns samplePollReady
  refine ⟨new, transmissions, ?_, unanswered⟩
  have sent := (transmissions.trans (List.append_nil new)).symm
  rw [sent]
  decide +kernel

end Loop

end VineyardLoader
