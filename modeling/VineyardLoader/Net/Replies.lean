import VineyardLoader.Net.Invariants
import VineyardLoader.Net.Datagrams

/-!
# Replies

What is sent while a frame is handled: the reply to an echo request, the advertisement that
answers a neighbor solicitation, and the acknowledgement of a netboot message. The sender of the
frame is remembered before the packet goes to its protocol, so the address of the sender is
found again when the reply is set up, whatever was remembered before (`resolve_heard`). Every
reply goes back to the sender (`replies_return_to_sender`).

A neighbor solicitation is answered after four checks, which are fewer than the protocol asks for
(`solicitation_validated_iff`).
-/

set_option autoImplicit false

namespace VineyardLoader

/-! ## Replies to the sender of a frame -/

/-- A frame that goes back to the sender of the frame in the receive buffer. -/
structure Reply (s : NetState) (length : Nat) (reply : Memory) : Prop where
  destination : reply.bytes 0 6 = s.frame.bytes 6 6
  source : reply.bytes 6 6 = s.llMacAddr.bytes 0 6
  length : packetLength reply = length - 54
  hopLimit : reply 21 = 255
  ip6Source : reply.bytes 22 16 = s.ip6LlAddr.bytes 0 16
  ip6Destination : reply.bytes 38 16 = s.frame.bytes 22 16

/-- What was handed to `Transmit` goes back to the sender of the frame in the receive buffer. -/
def RepliesTo (s : NetState) (sent : Transmission) : Prop :=
  ∀ reply : Memory, reply.bytes 0 sent.bytes.length = sent.bytes →
    Reply s sent.bytes.length reply

/-- A packet from this node to the sender of a frame is a reply. -/
theorem RepliesTo.of_packet {s : NetState} {sent : Transmission} {mac dst : Memory} {type : Nat}
    {payload : List UInt8} (short : payload.length < 2 ^ 16)
    (toMac : mac.bytes 0 6 = s.frame.bytes 6 6) (toIp6 : dst.bytes 0 16 = s.frame.bytes 22 16)
    (bytes : sent.bytes = packetFrame mac s.llMacAddr s.ip6LlAddr dst type payload) :
    RepliesTo s sent := by
  intro reply holds
  rw [bytes, packetFrame_length] at holds
  have fields := packetFrame_fields holds
  refine ⟨fields.destination.trans toMac, fields.source, ?_, ?_, fields.ip6Source,
    fields.ip6Destination.trans toIp6⟩
  · rw [bytes, packetFrame_length, Nat.add_sub_cancel_left]
    exact htons_loadLE_bigEndian short fields.length
  · have first : [reply 21] = [255] := fields.hopLimit
    exact List.cons.inj first |>.1

/-- The sender that was remembered is found. -/
theorem resolve_heard {u : NetState} {dst : Memory} (unicast : dst 0 ≠ 0xFF)
    (same : dst.bytes 0 16 = u.remoteIp6Addr.bytes 0 16) : u.resolve dst = some u.remoteMacAddr := by
  rw [NetState.resolve, if_neg unicast, if_pos (sameBytes_iff.mpr same)]

/-- Everything that was sent since a frame came went back to its sender. -/
def Replied (s u : NetState) : Prop :=
  ∃ new, u.transmissions = new ++ s.transmissions ∧ ∀ sent ∈ new, RepliesTo s sent

/-! ## Acknowledgements -/

section Acknowledgements

variable {fw : NetFirmware} {s u : NetState}

/-- Where netboot messages go. -/
def NetState.messageAddress (s : NetState) : Memory :=
  if !netIp6Empty s.remoteIp6Addr then s.remoteIp6Addr else ip6AllNodes

/-- A netboot message is a datagram, unless there is no memory for it. -/
theorem netbootCmdSend_cases (cmd : Nat) (data : Option Memory) (dataLen : Nat) (u : NetState) :
    netbootCmdSend fw cmd data dataLen u = .error .exit u ∨
      ∃ message block, netbootCmdSend fw cmd data dataLen u = (do
        netUdp6Send fw message (16 + dataLen) u.messageAddress 57778 57777
        netFree fw block) u := by
  have malloc : netMalloc fw (16 + dataLen) u = .error .exit u ∨
      ∃ block, netMalloc fw (16 + dataLen) u = .ok block u := by
    rw [netMalloc, bind_of_ok (netAllocatePool_run _ _)]
    cases fw.allocatePool u (16 + dataLen) with
    | none => exact .inl rfl
    | some answer => exact .inr ⟨_, rfl⟩
  rcases malloc with refused | ⟨block, granted⟩
  · left
    rw [netbootCmdSend, bind_run, refused]
  · right
    rw [netbootCmdSend, bind_of_ok granted, NetState.messageAddress]
    cases empty : netIp6Empty u.remoteIp6Addr with
    | true =>
        rw [bind_of_ok (get_run _), empty]
        exact ⟨_, block, rfl⟩
    | false =>
        rw [bind_of_ok (get_run _), empty]
        exact ⟨_, block, rfl⟩

/-- What holds while a netboot message is handled: the sender is remembered, what was sent went
back to it, and a message that was to be sent was sent. -/
structure Answering (s u : NetState) : Prop where
  llMac : u.llMacAddr = s.llMacAddr
  ip6 : u.ip6LlAddr = s.ip6LlAddr
  remoteMac : u.remoteMacAddr = fun index => s.frame (6 + index)
  remoteIp6 : u.remoteIp6Addr = fun index => s.frame (22 + index)
  replies : ∃ new, u.transmissions = new ++ s.transmissions ∧ (∀ sent ∈ new, RepliesTo s sent) ∧
    s.acks.length + new.length ≤ u.acks.length ∧
    (new = [] → u.ethBufpool ≠ 0 ∧ u.acks.length = s.acks.length)

theorem Answering.outside_iff : Answering s u.outside ↔ Answering s u :=
  ⟨fun ⟨llMac, ip6, mac, remote, replies⟩ => ⟨llMac, ip6, mac, remote, replies⟩,
    fun ⟨llMac, ip6, mac, remote, replies⟩ => ⟨llMac, ip6, mac, remote, replies⟩⟩

theorem Answering.replied (answering : Answering s u) : Replied s u := by
  obtain ⟨new, transmissions, back, -⟩ := answering.replies
  exact ⟨new, transmissions, back⟩

/-- A datagram to the sender, with a note that an acknowledgement was made. -/
theorem Answering.datagram {ack : Ack} {v : NetState} {message : Memory}
    (answering : Answering s u) (unicast : s.frame 22 ≠ 0xFF)
    (run : netUdp6Send fw message 32 u.remoteIp6Addr 57778 57777
      { u with acks := u.acks ++ [ack] } = .ok () v) : Answering s v := by
  obtain ⟨new, transmissions, back, bound, unsent⟩ := answering.replies
  have core := (netUdp6Send_keeps _ _ _ _ _).ok run
  have found : NetState.resolve { u with acks := u.acks ++ [ack] } u.remoteIp6Addr =
      some u.remoteMacAddr := by
    refine @resolve_heard { u with acks := u.acks ++ [ack] } _ ?_ rfl
    rw [answering.remoteIp6]
    exact unicast
  have acks : v.acks.length = u.acks.length + 1 := by
    rw [show v.acks = u.acks ++ [ack] from congrArg NetState.acks core]
    simp
  refine ⟨(congrArg NetState.llMacAddr core :).trans answering.llMac,
    (congrArg NetState.ip6LlAddr core :).trans answering.ip6,
    (congrArg NetState.remoteMacAddr core :).trans answering.remoteMac,
    (congrArg NetState.remoteIp6Addr core :).trans answering.remoteIp6, ?_⟩
  by_cases empty : u.ethBufpool = 0
  · -- without a buffer nothing is sent, but then a reply was sent before
    rw [netUdp6Send_empty (show NetState.ethBufpool { u with acks := u.acks ++ [ack] } = 0 from empty)]
      at run
    cases run
    exact ⟨new, transmissions, back, by omega, fun none => absurd empty (unsent none).1⟩
  · obtain ⟨w, sent, again, transmits, bytes⟩ := @netUdp6Send_frame fw
      { u with acks := u.acks ++ [ack] } u.remoteIp6Addr _ empty found message 32 57778 57777
      (by decide)
    rw [run] at again
    cases again
    have packet : sent.bytes = packetFrame u.remoteMacAddr u.llMacAddr u.ip6LlAddr u.remoteIp6Addr 17
        (udpPacket u.ip6LlAddr u.remoteIp6Addr message 32 57778 57777) := bytes
    rw [answering.llMac, answering.ip6] at packet
    have reply : RepliesTo s sent := by
      refine RepliesTo.of_packet ?_ ?_ ?_ packet
      · rw [udpPacket_length]
        decide
      · rw [answering.remoteMac, bytes_shift]
      · rw [answering.remoteIp6, bytes_shift]
    refine ⟨sent :: new, ?_, List.forall_mem_cons.mpr ⟨reply, back⟩, ?_, nofun⟩
    · rw [transmits, List.cons_append]
      exact congrArg (sent :: ·) transmissions
    · rw [acks, List.length_cons]
      omega

/-- An acknowledgement goes to the sender. -/
theorem sendAck_answers (unicast : s.frame 22 ≠ 0xFF)
    (known : ¬ netIp6Empty fun index => s.frame (22 + index)) (ack : Ack) :
    Preserves (fun u => Answering s u.outside) (fun u => Replied s u.outside) (sendAck fw ack) := by
  intro u holds
  have answering := Answering.outside_iff.mp holds
  have address : NetState.messageAddress { u with acks := u.acks ++ [ack] } = u.remoteIp6Addr := by
    rw [NetState.messageAddress, answering.remoteIp6]
    exact if_pos (by simpa using known)
  rw [sendAck, bind_of_ok (modify_run _ _)]
  rcases netbootCmdSend_cases cmdAck (some ack.encode) 16 { u with acks := u.acks ++ [ack] } with
    refused | ⟨message, block, sends⟩
  · rw [refused]
    refine ⟨?_, fun _ _ same => ?_⟩
    · rintro _ _ ⟨⟩
    · cases same
      exact answering.replied
  · rw [sends, address]
    obtain ⟨v, run⟩ : ∃ v, netUdp6Send fw message 32 u.remoteIp6Addr 57778 57777
        { u with acks := u.acks ++ [ack] } = .ok () v := by
      obtain ⟨⟨⟩, v, run⟩ := netUdp6Send_returns message 32 u.remoteIp6Addr 57778 57777
        { u with acks := u.acks ++ [ack] }
      exact ⟨v, run⟩
    have after := answering.datagram unicast run
    rw [bind_of_ok run]
    have kept := @netFree_keeps fw _ id block
    refine ⟨fun _ final freed => ?_, fun _ final freed => ?_⟩
    · rw [show final = v from kept.ok freed]
      exact Answering.outside_iff.mpr after
    · rw [show final = v from kept.error freed]
      exact after.replied

end Acknowledgements

/-! ## ICMPv6 messages -/

section Icmp

variable {fw : NetFirmware} {s u : NetState}

/-- The frame with an echo request turned into its reply. -/
def NetState.echoed (s : NetState) : Memory := (s.frame.storeLE 56 2 0).storeLE 54 1 129

theorem netIcmp6Receive_echo (echo : u.frame.loadLE 54 1 = 128) (len : Nat) :
    ∃ noted, netIcmp6Receive fw 14 54 len u =
      netIcmp6Send fw (frameBytes 54 len) len (fun index => u.echoed (22 + index))
        { u with frame := u.echoed, frameReads := noted } := by
  refine ⟨⟨22, 16⟩ :: ⟨54, 1⟩ :: u.frameReads, ?_⟩
  rw [netIcmp6Receive, bind_of_ok (frameLE_run _ _ _), if_pos echo, bind_of_ok (modify_run _ _),
    bind_of_ok (frameBytes_run _ _ _)]
  rfl

/-- The checks that are made of a neighbor solicitation. -/
def NetState.Solicited (s : NetState) (len : Nat) : Prop :=
  24 ≤ len ∧ s.frame.loadLE 55 1 = 0 ∧ s.frame.loadLE 21 1 = 255 ∧
    sameBytes (fun index => s.frame (62 + index)) s.ip6LlAddr 16

instance (s : NetState) (len : Nat) : Decidable (s.Solicited len) :=
  inferInstanceAs (Decidable (_ ∧ _ ∧ _ ∧ _))

/-- A solicitation that passes the checks is answered, and every other one is discarded. -/
theorem neighborSolicitation_run (len : Nat) (u : NetState) :
    ∃ noted, neighborSolicitation fw 14 54 len u =
      if u.Solicited len then
        netIcmp6Send fw (pure (neighborAdvertisement u)) 32 (fun index => u.frame (22 + index))
          { u with frameReads := noted }
      else .ok () { u with frameReads := noted } := by
  rw [neighborSolicitation]
  by_cases long : 24 ≤ len
  · rw [if_pos long, bind_of_ok (frameLE_run _ _ _)]
    by_cases code : u.frame.loadLE (54 + 1) 1 = 0
    · rw [if_pos code, bind_of_ok (frameLE_run _ _ _)]
      by_cases hopLimit : (u.withRead (54 + 1) 1).frame.loadLE (14 + 7) 1 = 255
      · rw [if_pos hopLimit, bind_of_ok (frameBytes_run _ _ _), bind_of_ok (get_run _)]
        by_cases target : sameBytes (fun index => u.frame (62 + index)) u.ip6LlAddr 16
        · refine ⟨⟨22, 16⟩ :: ⟨62, 16⟩ :: ⟨21, 1⟩ :: ⟨55, 1⟩ :: u.frameReads, ?_⟩
          rw [if_pos (show u.Solicited len from ⟨long, code, hopLimit, target⟩)]
          exact congrFun (if_pos target) _
        · refine ⟨⟨62, 16⟩ :: ⟨21, 1⟩ :: ⟨55, 1⟩ :: u.frameReads, ?_⟩
          rw [if_neg fun checked : u.Solicited len => target checked.2.2.2]
          exact congrFun (if_neg target) _
      · refine ⟨⟨21, 1⟩ :: ⟨55, 1⟩ :: u.frameReads, ?_⟩
        rw [if_neg hopLimit, if_neg fun checked : u.Solicited len => hopLimit checked.2.2.1]
        rfl
    · refine ⟨⟨55, 1⟩ :: u.frameReads, ?_⟩
      rw [if_neg code, if_neg fun checked : u.Solicited len => code checked.2.1]
      rfl
  · refine ⟨u.frameReads, ?_⟩
    rw [if_neg long, if_neg fun checked : u.Solicited len => long checked.1]
    rfl

theorem netIcmp6Receive_solicitation {len : Nat} (solicitation : u.frame.loadLE 54 1 = 135) :
    ∃ noted, netIcmp6Receive fw 14 54 len u =
      if u.Solicited len then
        netIcmp6Send fw (pure (neighborAdvertisement u)) 32 (fun index => u.frame (22 + index))
          { u with frameReads := noted }
      else .ok () { u with frameReads := noted } := by
  obtain ⟨noted, run⟩ := @neighborSolicitation_run fw len (u.withRead 54 1)
  refine ⟨noted, ?_⟩
  rw [netIcmp6Receive, bind_of_ok (frameLE_run _ _ _), solicitation, if_neg (by decide), if_pos rfl]
  exact run

theorem netIcmp6Receive_other {len : Nat} (noEcho : u.frame.loadLE 54 1 ≠ 128)
    (noSolicitation : u.frame.loadLE 54 1 ≠ 135) :
    ∃ noted, netIcmp6Receive fw 14 54 len u = .ok () { u with frameReads := noted } := by
  refine ⟨⟨54, 1⟩ :: u.frameReads, ?_⟩
  rw [netIcmp6Receive, bind_of_ok (frameLE_run _ _ _), if_neg noEcho, if_neg noSolicitation]
  rfl

theorem packetFrame_drop (mac llMac src dst : Memory) (type : Nat) (payload : List UInt8) :
    (packetFrame mac llMac src dst type payload).drop 54 = payload := by
  simp (disch := simp) [packetFrame, List.drop_append, List.drop_eq_nil_of_le]

/-- The data of an echo reply is read from the frame. -/
theorem reads_frameBytes (start size : Nat) (s : NetState) :
    Reads (frameBytes start size) (fun index => s.frame (start + index)) s := by
  intro u same
  refine ⟨⟨start, size⟩ :: u.frameReads, ?_⟩
  rw [frameBytes_run, ← same]
  rfl

/-- An ICMPv6 message to the sender of the frame is a reply. -/
theorem netIcmp6Send_reply {dst frame source : Memory} {noted : List Extent} {data : Net Memory}
    {length : Nat} (free : s.ethBufpool ≠ 0) (unicast : dst 0 ≠ 0xFF)
    (same : dst.bytes 0 16 = s.frame.bytes 22 16)
    (reads : Reads data source { s.heard noted with frame := frame }) (short : length ≤ 1460) :
    ∃ t sent, netIcmp6Send fw data length dst { s.heard noted with frame := frame } = .ok () t ∧
      t.transmissions = sent :: s.transmissions ∧ RepliesTo s sent ∧
      sent.bytes.drop 54 = icmpMessage s.ip6LlAddr dst source length := by
  have found : NetState.resolve { s.heard noted with frame := frame } dst =
      some fun index => s.frame (6 + index) := by
    apply @resolve_heard { s.heard noted with frame := frame } dst unicast
    exact same.trans (bytes_shift _ _ _).symm
  obtain ⟨t, sent, run, transmits, bytes⟩ := @netIcmp6Send_frame fw
    { s.heard noted with frame := frame } dst _ free found data source reads length short
  refine ⟨t, sent, run, transmits, RepliesTo.of_packet ?_ (bytes_shift _ _ _) same bytes, ?_⟩
  · rw [icmpMessage_length]
    omega
  · rw [bytes, packetFrame_drop]
    rfl

/-- The echo reply: the bytes of the request with another type and a new checksum. -/
def echoReply (s : NetState) (n : Nat) : List UInt8 :=
  let rest := s.frame.bytes 58 (n - 4)
  [129, s.frame 55] ++ (bigEndian 2 (internetChecksum
    (pseudoBytes s.ip6LlAddr (fun index => s.frame (22 + index)) n 58 ++
      ([129, s.frame 55] ++ ([0, 0] ++ rest)))) ++ rest)

theorem echoed_outside {address : Nat} (outside : address < 54 ∨ address = 55 ∨ 58 ≤ address) :
    s.echoed address = s.frame address := by
  rw [NetState.echoed, Memory.storeLE, Memory.overwrite_outside _ (by omega), Memory.storeLE,
    Memory.overwrite_outside _ (by omega)]

theorem echoed_bytes (start size : Nat) (outside : start + size ≤ 54 ∨ 58 ≤ start) :
    s.echoed.bytes start size = s.frame.bytes start size :=
  Memory.bytes_congr fun index inside => echoed_outside (by omega)

/-- The message that answers an echo request. -/
theorem icmpMessage_echoed {n : Nat} (long : 4 ≤ n) :
    icmpMessage s.ip6LlAddr (fun index => s.echoed (22 + index)) (fun index => s.echoed (54 + index)) n =
      echoReply s n := by
  have addresses : Memory.bytes (fun index => s.echoed (22 + index)) 0 16 =
      Memory.bytes (fun index => s.frame (22 + index)) 0 16 := by
    rw [bytes_shift, bytes_shift, echoed_bytes _ _ (by omega)]
  obtain ⟨rest, rfl⟩ : ∃ rest, n = 2 + (2 + rest) := ⟨n - 4, by omega⟩
  have first : Memory.bytes (fun index => s.echoed (54 + index)) 0 2 = [129, s.frame 55] := by
    have code : s.echoed 55 = s.frame 55 := echoed_outside (.inr (.inl rfl))
    have type : s.echoed 54 = 129 := by
      simp [NetState.echoed, Memory.storeLE, Memory.overwrite]
    simp [Memory.bytes_two, code, type]
  have checksum : Memory.bytes (fun index => s.echoed (54 + index)) (0 + 2) 2 = [0, 0] := by
    simp [Memory.bytes_two, NetState.echoed, Memory.storeLE, Memory.overwrite]
  have last : Memory.bytes (fun index => s.echoed (54 + index)) (0 + 2 + 2) rest =
      s.frame.bytes 58 rest :=
    Memory.bytes_congr fun index inside => by
      rw [echoed_outside (by omega)]
      congr 1
      omega
  have covered : Memory.bytes (fun index => s.echoed (54 + index)) 0 (2 + (2 + rest)) =
      [129, s.frame 55] ++ ([0, 0] ++ s.frame.bytes 58 rest) := by
    rw [Memory.bytes_add, Memory.bytes_add, first, checksum, last]
  have tail : 2 + (2 + rest) - 4 = rest := by omega
  rw [icmpMessage, covered, pseudoBytes, addresses, ← pseudoBytes, Memory.bytes_add, Memory.bytes_add,
    bytes_storeLE_swapBytes, echoReply, tail]
  simp only [Memory.storeLE]
  rw [Memory.bytes_overwrite_of_disjoint _ (by omega), first,
    Memory.bytes_overwrite_of_disjoint _ (by omega), last]

end Icmp

/-! ## Whole frames -/

/-- A frame with a netboot message. -/
def IsNetboot (frame : Memory) : Prop :=
  frame.loadLE 20 1 = 17 ∧ htons (frame.loadLE 56 2) = 57777

/-- A frame with an echo request. -/
def IsEcho (frame : Memory) : Prop := frame.loadLE 20 1 = 58 ∧ frame.loadLE 54 1 = 128

/-- A frame with a neighbor solicitation. -/
def IsSolicitation (frame : Memory) : Prop := frame.loadLE 20 1 = 58 ∧ frame.loadLE 54 1 = 135

/-- What is sent for a frame. All of it goes back to the sender. One frame is sent for every
acknowledgement that is made, for an echo request that is not too long and for a solicitation that
passes the checks, so the address of the sender is found in each of these cases. -/
structure Replies (s t : NetState) (returns : Bool) (new : List Transmission) : Prop where
  transmissions : t.transmissions = new ++ s.transmissions
  back : ∀ sent ∈ new, RepliesTo s sent
  acks : IsNetboot s.frame → returns → t.acks.length = s.acks.length + new.length
  solicited : IsSolicitation s.frame → s.Solicited (packetLength s.frame) → new.length = 1
  echo : IsEcho s.frame → packetLength s.frame ≤ 1460 → new.length = 1
  echoed : IsEcho s.frame → 4 ≤ packetLength s.frame → packetLength s.frame ≤ 1460 →
    ∀ sent ∈ new, sent.bytes.drop 54 = echoReply s (packetLength s.frame)
  long : IsEcho s.frame → 1460 < packetLength s.frame → new = []

section Frames

variable {fw : NetFirmware} {s : NetState} {noted : List Extent}

/-- Nothing is sent for a frame of another kind. -/
theorem Replies.none {t : NetState} {returns : Bool} (same : t.transmissions = s.transmissions)
    (noNetboot : ¬ IsNetboot s.frame) (noEcho : ¬ IsEcho s.frame)
    (unsolicited : ¬ (IsSolicitation s.frame ∧ s.Solicited (packetLength s.frame))) :
    Replies s t returns [] where
  transmissions := same
  back := nofun
  acks netboot := absurd netboot noNetboot
  solicited isSolicitation checked := absurd ⟨isSolicitation, checked⟩ unsolicited
  echo isEcho := absurd isEcho noEcho
  echoed isEcho := absurd isEcho noEcho
  long isEcho := absurd isEcho noEcho

/-- The sender of the frame is remembered when a netboot message reaches its handler. -/
theorem Answering.start (free : s.ethBufpool ≠ 0) : Answering s ((s.heard noted).withRead 56 2) where
  llMac := rfl
  ip6 := rfl
  remoteMac := rfl
  remoteIp6 := rfl
  replies := ⟨[], rfl, nofun, Nat.le_refl _, fun _ => ⟨free, rfl⟩⟩

theorem replies_netboot {len : Nat} (netboot : IsNetboot s.frame) (free : s.ethBufpool ≠ 0)
    (unicast : s.frame 22 ≠ 0xFF) (known : ¬ netIp6Empty fun index => s.frame (22 + index)) :
    ∃ new, Replies s (finalState (netUdp6Receive fw 14 54 len (s.heard noted)))
      (returned (netUdp6Receive fw 14 54 len (s.heard noted))) new := by
  have noIcmp : s.frame.loadLE 20 1 ≠ 58 := by
    rw [netboot.1]
    decide
  have other : ∀ {t : NetState} {returns : Bool} {new : List Transmission},
      t.transmissions = new ++ s.transmissions → (∀ sent ∈ new, RepliesTo s sent) →
      (returns → t.acks.length = s.acks.length + new.length) → Replies s t returns new :=
    fun transmissions back acks => ⟨transmissions, back, fun _ => acks,
      fun is => absurd is.1 noIcmp, fun is => absurd is.1 noIcmp, fun is => absurd is.1 noIcmp,
      fun is => absurd is.1 noIcmp⟩
  have preserved := @netbootCmdReceive_preserves fw 62 (Answering s) (Replied s)
    (fun _ => Answering.replied) (sendAck_answers unicast known)
    (writeFile_preserves (fun _ => Answering.replied) fun u _ _ h =>
      ⟨h.llMac, h.ip6, h.remoteMac, h.remoteIp6, h.replies⟩)
    ((s.heard noted).withRead 56 2) (Answering.outside_iff.mpr (Answering.start free))
  rw [netUdp6Receive, bind_of_ok (frameLE_run _ _ _),
    if_pos (show htons ((s.heard noted).frame.loadLE (54 + 2) 2) = 57777 from netboot.2)]
  cases run : netbootCmdReceive fw 62 ((s.heard noted).withRead 56 2) with
  | ok value t =>
      obtain ⟨new, transmissions, back, bound, unsent⟩ :=
        (Answering.outside_iff.mp (preserved.1 value t run)).replies
      have outcome : Outcome fw s.frame _ _ := receiveMessage_outcome (show receiveMessage fw s.frame
        ((s.heard noted).withRead 56 2) = .ok () t from run)
      have once : t.acks.length ≤ s.acks.length + 1 := outcome.acks_length
      refine ⟨new, ?_⟩
      apply other transmissions back
      intro _
      show t.acks.length = s.acks.length + new.length
      by_cases none : new = []
      · rw [none, (unsent none).2]
        rfl
      · have positive := List.length_pos_iff.mpr none
        omega
  | error reason t =>
      obtain ⟨new, transmissions, back⟩ := preserved.2 reason t run
      refine ⟨new, ?_⟩
      exact other transmissions back fun stopped => absurd stopped Bool.false_ne_true

theorem not_isNetboot {frame : Memory} (icmp : frame.loadLE 20 1 = 58) : ¬ IsNetboot frame := by
  rintro ⟨udp, -⟩
  rw [icmp] at udp
  exact absurd udp (by decide)

theorem IsEcho.not_isSolicitation {frame : Memory} (echo : IsEcho frame) :
    ¬ IsSolicitation frame := by
  rintro ⟨-, type⟩
  rw [echo.2] at type
  exact absurd type (by decide)

/-- What is sent for an echo request, which may be too long to be answered. -/
theorem replies_echo (echo : IsEcho s.frame) (free : s.ethBufpool ≠ 0)
    (unicast : s.frame 22 ≠ 0xFF) :
    ∃ t new, netIcmp6Receive fw 14 54 (packetLength s.frame) (s.heard noted) = .ok () t ∧
      ∀ returns, Replies s t returns new := by
  have noNetboot := not_isNetboot echo.1
  have noSolicitation := echo.not_isSolicitation
  obtain ⟨reads, run⟩ := @netIcmp6Receive_echo fw (s.heard noted) echo.2 (packetLength s.frame)
  rw [run]
  by_cases long : 1460 < packetLength s.frame
  · refine ⟨_, [], @netIcmp6Send_long fw { s.heard reads with frame := s.echoed } _ free _ _ long,
      fun returns => ?_⟩
    exact {
      transmissions := rfl
      back := nofun
      acks := fun is => absurd is noNetboot
      solicited := fun is => absurd is noSolicitation
      echo := fun _ short => absurd long (Nat.not_lt.mpr short)
      echoed := nofun
      long := fun _ _ => rfl }
  · obtain ⟨t, sent, sends, transmits, back, bytes⟩ := @netIcmp6Send_reply fw s
      (fun index => s.echoed (22 + index)) s.echoed (fun index => s.echoed (54 + index)) reads
      (frameBytes 54 (packetLength s.frame)) (packetLength s.frame) free
      (by rwa [echoed_outside (.inl (by decide))])
      (by rw [bytes_shift, echoed_bytes _ _ (by omega)])
      (reads_frameBytes _ _ _) (by omega)
    refine ⟨t, [sent], sends, fun returns => ?_⟩
    exact {
      transmissions := transmits
      back := List.forall_mem_singleton.mpr back
      acks := fun is => absurd is noNetboot
      solicited := fun is => absurd is noSolicitation
      echo := fun _ _ => rfl
      echoed := fun _ four _ => List.forall_mem_singleton.mpr (bytes.trans (icmpMessage_echoed four))
      long := fun _ other => absurd other long }

/-- What is sent for a neighbor solicitation. -/
theorem replies_solicitation (solicitation : IsSolicitation s.frame) (free : s.ethBufpool ≠ 0)
    (unicast : s.frame 22 ≠ 0xFF) :
    ∃ t new, netIcmp6Receive fw 14 54 (packetLength s.frame) (s.heard noted) = .ok () t ∧
      ∀ returns, Replies s t returns new := by
  have noNetboot := not_isNetboot solicitation.1
  have noEcho : ¬ IsEcho s.frame := fun echo => echo.not_isSolicitation solicitation
  obtain ⟨reads, run⟩ :=
    @netIcmp6Receive_solicitation fw (s.heard noted) (packetLength s.frame) solicitation.2
  rw [run]
  by_cases checked : (s.heard noted).Solicited (packetLength s.frame)
  · rw [if_pos checked]
    obtain ⟨t, sent, sends, transmits, back, -⟩ := @netIcmp6Send_reply fw s
      (fun index => s.frame (22 + index)) s.frame _ reads
      (pure (neighborAdvertisement (s.heard noted))) 32 free unicast (bytes_shift _ _ _)
      (fun u same => ⟨u.frameReads, rfl⟩) (by decide)
    refine ⟨t, [sent], sends, fun returns => ?_⟩
    exact {
      transmissions := transmits
      back := List.forall_mem_singleton.mpr back
      acks := fun is => absurd is noNetboot
      solicited := fun _ _ => rfl
      echo := fun is => absurd is noEcho
      echoed := fun is => absurd is noEcho
      long := fun is => absurd is noEcho }
  · rw [if_neg checked]
    exact ⟨_, [], rfl, fun returns => Replies.none rfl noNetboot noEcho fun both =>
      checked both.2⟩

/-- What is sent for an ICMPv6 message. -/
theorem replies_icmp (icmp : s.frame.loadLE 20 1 = 58) (free : s.ethBufpool ≠ 0)
    (unicast : s.frame 22 ≠ 0xFF) :
    ∃ t new, netIcmp6Receive fw 14 54 (packetLength s.frame) (s.heard noted) = .ok () t ∧
      ∀ returns, Replies s t returns new := by
  by_cases echo : s.frame.loadLE 54 1 = 128
  · exact replies_echo ⟨icmp, echo⟩ free unicast
  by_cases type : s.frame.loadLE 54 1 = 135
  · exact replies_solicitation ⟨icmp, type⟩ free unicast
  obtain ⟨reads, run⟩ := @netIcmp6Receive_other fw (s.heard noted) (packetLength s.frame) echo type
  refine ⟨_, [], run, fun returns => ?_⟩
  exact Replies.none rfl (not_isNetboot icmp) (fun is => echo is.2) fun both => type both.1.2

/-- **Replies return to the sender.** Whatever was heard before, everything that is sent while a
frame from a single node is handled goes back to that node. -/
theorem replies_return_to_sender (fw : NetFirmware) (s : NetState) (len : Nat)
    (accepts : Accepts s s.frame len) (free : s.ethBufpool ≠ 0) (unicast : s.frame 22 ≠ 0xFF)
    (known : IsNetboot s.frame → ¬ netIp6Empty fun index => s.frame (22 + index)) :
    ∃ new, Replies s (finalState (netEthReceive fw len s)) (returned (netEthReceive fw len s)) new := by
  obtain ⟨noted, run⟩ := @netEthReceive_accepted fw s len accepts
  have same : ∀ program : Net Unit,
      finalState ((do program; return true) (s.heard noted)) = finalState (program (s.heard noted)) ∧
        returned ((do program; return true) (s.heard noted)) =
          returned (program (s.heard noted)) := by
    intro program
    rw [bind_run]
    cases program (s.heard noted) <;> exact ⟨rfl, rfl⟩
  rw [run, (same _).1, (same _).2, receiveProtocol]
  by_cases udp : s.frame.loadLE 20 1 = 17
  · rw [if_pos udp]
    by_cases port : htons (s.frame.loadLE 56 2) = 57777
    · exact replies_netboot ⟨udp, port⟩ free unicast (known ⟨udp, port⟩)
    · have icmp : s.frame.loadLE 20 1 ≠ 58 := by omega
      rw [netUdp6Receive, bind_of_ok (frameLE_run _ _ _),
        if_neg (show ¬ htons ((s.heard noted).frame.loadLE (54 + 2) 2) = 57777 from port)]
      exact ⟨[], Replies.none rfl (fun is => port is.2) (fun is => icmp is.1) fun is => icmp is.1.1⟩
  · rw [if_neg udp]
    by_cases icmp : s.frame.loadLE 20 1 = 58
    · rw [if_pos icmp]
      obtain ⟨t, new, sends, replies⟩ := @replies_icmp fw s noted icmp free unicast
      rw [sends]
      exact ⟨new, replies true⟩
    · rw [if_neg icmp]
      exact ⟨[], Replies.none rfl (fun is => udp is.1) (fun is => icmp is.1) fun is => icmp is.1.1⟩

end Frames

/-- The frame of an ICMPv6 message from another node. -/
def sampleMessage (message : List UInt8) : Memory := fun index =>
  (packetFrame (fun _ => 2) (fun _ => 4) (fun _ => 0xFC) (fun _ => 0xFE) 58 message).getD index 0

theorem replies_return_to_sender_sample :
    ∃ sent, RepliesTo { sampleNetState with frame := sampleMessage [128, 0, 0, 0, 1, 2, 3, 4] } sent ∧
      (finalState (netEthReceive sampleNetFirmware 62
        { sampleNetState with frame := sampleMessage [128, 0, 0, 0, 1, 2, 3, 4] })).transmissions =
          [sent] := by
  obtain ⟨new, replies⟩ := replies_return_to_sender sampleNetFirmware
    { sampleNetState with frame := sampleMessage [128, 0, 0, 0, 1, 2, 3, 4] } 62
    ⟨by decide, by decide, by decide, by decide, by decide⟩ (by decide) (by decide)
    fun _ => (by decide)
  obtain ⟨sent, rfl⟩ := List.length_eq_one_iff.mp (replies.echo ⟨by decide, by decide⟩ (by decide))
  exact ⟨sent, replies.back sent (List.mem_singleton_self sent), replies.transmissions⟩

/-! ## Neighbor solicitations -/

/-- The types of the options of a neighbor discovery message, where the options are well formed:
each has a length that is not zero, in units of eight bytes, and ends inside the message. -/
def ndpOptions : Nat → List UInt8 → Option (List UInt8)
  | _, [] => some []
  | 0, _ => none
  | fuel + 1, bytes =>
      match bytes with
      | type :: length :: _ =>
          if length = 0 ∨ bytes.length < 8 * length.toNat then none
          else (ndpOptions fuel (bytes.drop (8 * length.toNat))).map (type :: ·)
      | _ => none

/-- The prefix of the solicited-node multicast addresses. -/
def solicitedNodePrefix : List UInt8 := [0xFF, 2, 0, 0, 0, 0, 0, 0, 0, 0, 0, 1, 0xFF]

/-- The option list is well formed, and a solicitation from the unspecified address goes to a
solicited-node address and has no option with the address of its sender. -/
def NetState.OptionsValid (s : NetState) (n : Nat) : Prop :=
  ∃ types, ndpOptions n (s.frame.bytes 78 (n - 24)) = some types ∧
    (s.frame.bytes 22 16 = List.replicate 16 0 →
      s.frame.bytes 38 13 = solicitedNodePrefix ∧ 1 ∉ types)

/-- A neighbor solicitation for this node is valid, by the rules of section 7.1.1 of RFC 4861. -/
structure ValidSolicitation (s : NetState) (n : Nat) : Prop where
  hopLimit : s.frame 21 = 255
  checksum : upperLayerSum s.frame 58 = 0xFFFF
  code : s.frame 55 = 0
  long : 24 ≤ n
  target : s.frame.bytes 62 16 = s.ip6LlAddr.bytes 0 16
  options : s.OptionsValid n

theorem loadLE_one_eq (mem : Memory) (address : Nat) :
    mem.loadLE address 1 = (mem address).toNat := rfl

/-- What the checks leave open is the checksum and the options. -/
theorem validSolicitation_iff {s : NetState} {n : Nat} :
    ValidSolicitation s n ↔
      s.Solicited n ∧ upperLayerSum s.frame 58 = 0xFFFF ∧ s.OptionsValid n := by
  have code : s.frame 55 = 0 ↔ s.frame.loadLE 55 1 = 0 := by
    rw [loadLE_one_eq, ← UInt8.toNat_inj]
    rfl
  have hopLimit : s.frame 21 = 255 ↔ s.frame.loadLE 21 1 = 255 := by
    rw [loadLE_one_eq, ← UInt8.toNat_inj]
    rfl
  have target : s.frame.bytes 62 16 = s.ip6LlAddr.bytes 0 16 ↔
      sameBytes (fun index => s.frame (62 + index)) s.ip6LlAddr 16 := by
    rw [sameBytes_iff, bytes_shift]
  constructor
  · intro valid
    exact ⟨⟨valid.long, code.mp valid.code, hopLimit.mp valid.hopLimit, target.mp valid.target⟩,
      valid.checksum, valid.options⟩
  · rintro ⟨⟨long, zero, limit, same⟩, checksum, options⟩
    exact ⟨hopLimit.mpr limit, checksum, code.mpr zero, long, target.mpr same, options⟩

/-- The transmit buffers and what was sent. -/
def NetState.transmitState (s : NetState) : Memory × Nat × Nat × List Transmission :=
  (s.mem, s.ethBufpool, s.ethBufpoolAvail, s.transmissions)

/-- A solicitation that passes the checks is answered if there is a transmit buffer. All others
change nothing about the transmit buffers. -/
theorem solicitation_received (fw : NetFirmware) {s : NetState} {len : Nat}
    (accepts : Accepts s s.frame len) (solicitation : IsSolicitation s.frame) :
    ∃ t, netEthReceive fw len s = .ok true t ∧
      if s.ethBufpool ≠ 0 ∧ s.Solicited (packetLength s.frame) then
        ∃ sent, t.transmissions = sent :: s.transmissions
      else t.transmitState = s.transmitState := by
  obtain ⟨noted, run⟩ := @netEthReceive_accepted fw s len accepts
  obtain ⟨reads, received⟩ :=
    @netIcmp6Receive_solicitation fw (s.heard noted) (packetLength s.frame) solicitation.2
  have protocol : receiveProtocol fw (s.frame.loadLE 20 1) (packetLength s.frame) =
      netIcmp6Receive fw 14 54 (packetLength s.frame) := by
    rw [receiveProtocol, solicitation.1]
    rfl
  have ends : ∀ {t}, netIcmp6Receive fw 14 54 (packetLength s.frame) (s.heard noted) = .ok () t →
      netEthReceive fw len s = .ok true t := by
    intro t handled
    rw [run, protocol, bind_of_ok handled]
    rfl
  by_cases checked : s.Solicited (packetLength s.frame)
  · rw [if_pos (show (s.heard noted).Solicited _ from checked)] at received
    by_cases empty : s.ethBufpool = 0
    · rw [@netIcmp6Send_empty fw { s.heard noted with frameReads := reads } _ empty] at received
      refine ⟨_, ends received, ?_⟩
      rw [if_neg fun both => both.1 empty]
      rfl
    · -- the address of the sender is found, also where it is a multicast address
      obtain ⟨mac, found⟩ : ∃ mac, NetState.resolve { s.heard noted with frameReads := reads }
          (fun index => s.frame (22 + index)) = some mac := by
        by_cases unicast : s.frame 22 = 0xFF
        · exact ⟨_, if_pos unicast⟩
        · exact ⟨_, @resolve_heard { s.heard noted with frameReads := reads } _ unicast rfl⟩
      obtain ⟨t, sent, sends, transmits, -⟩ := @netIcmp6Send_frame fw
        { s.heard noted with frameReads := reads } _ mac empty found
        (pure (neighborAdvertisement (s.heard noted))) _ (fun u _ => ⟨u.frameReads, rfl⟩) 32
        (by decide)
      refine ⟨t, ends (received.trans sends), ?_⟩
      rw [if_pos ⟨empty, checked⟩]
      exact ⟨sent, transmits⟩
  · rw [if_neg (show ¬ (s.heard noted).Solicited _ from checked)] at received
    refine ⟨_, ends received, ?_⟩
    rw [if_neg fun both => checked both.2]
    rfl

/-- **Neighbor solicitations.** Only valid solicitations are answered, and the others change nothing
about the transmit buffers, exactly when no transmit buffer is free, or the solicitation fails one
of the checks, or its checksum and its options are valid. -/
theorem solicitation_validated_iff (fw : NetFirmware) (s : NetState) (len : Nat)
    (accepts : Accepts s s.frame len) (solicitation : IsSolicitation s.frame) :
    (∃ t, netEthReceive fw len s = .ok true t ∧
      (t.transmissions ≠ s.transmissions → ValidSolicitation s (packetLength s.frame)) ∧
      (¬ ValidSolicitation s (packetLength s.frame) → t.transmitState = s.transmitState)) ↔
    (s.ethBufpool = 0 ∨ ¬ s.Solicited (packetLength s.frame) ∨
      upperLayerSum s.frame 58 = 0xFFFF ∧ s.OptionsValid (packetLength s.frame)) := by
  obtain ⟨t, run, outcome⟩ := solicitation_received fw accepts solicitation
  by_cases answered : s.ethBufpool ≠ 0 ∧ s.Solicited (packetLength s.frame)
  · rw [if_pos answered] at outcome
    obtain ⟨sent, transmits⟩ := outcome
    have sends : t.transmissions ≠ s.transmissions := by
      rw [transmits]
      exact List.cons_ne_self _ _
    constructor
    · rintro ⟨u, again, onlyValid, -⟩
      rw [run] at again
      cases again
      exact .inr (.inr (validSolicitation_iff.mp (onlyValid sends)).2)
    · rintro (empty | failed | rules)
      · exact absurd empty answered.1
      · exact absurd answered.2 failed
      · have valid := validSolicitation_iff.mpr ⟨answered.2, rules⟩
        exact ⟨t, run, fun _ => valid, fun invalid => absurd valid invalid⟩
  · rw [if_neg answered] at outcome
    have quiet : t.transmissions = s.transmissions := congrArg (·.2.2.2) outcome
    constructor
    · intro _
      rw [not_and_or, not_not] at answered
      exact answered.imp id .inl
    · intro _
      exact ⟨t, run, fun sends => absurd quiet sends, fun _ => outcome⟩

/-- A node receives a solicitation for its address, without options and with the given checksum. -/
def sampleSolicited (first second : UInt8) : NetState :=
  { sampleNetState with
    frame := sampleMessage ([135, 0, first, second, 0, 0, 0, 0] ++ List.replicate 16 0xFE) }

theorem sampleSolicited_accepts (first second : UInt8) :
    Accepts (sampleSolicited first second) (sampleSolicited first second).frame 78 ∧
      packetLength (sampleSolicited first second).frame = 24 := by
  have holds : HoldsPacket (sampleSolicited first second).frame _ _ _ (fun _ => 0xFE) 58 _ :=
    packetFrame_fields ((packetFrame_length ..) ▸ bytes_getD _)
  exact holds.accepts (by simp) (.inl rfl)

theorem solicitation_validated_iff_sample :
    (∃ t, netEthReceive sampleNetFirmware 78 (sampleSolicited 0xA0 0xD5) = .ok true t ∧
      (t.transmissions ≠ (sampleSolicited 0xA0 0xD5).transmissions →
        ValidSolicitation (sampleSolicited 0xA0 0xD5) 24) ∧
      (¬ ValidSolicitation (sampleSolicited 0xA0 0xD5) 24 →
        t.transmitState = (sampleSolicited 0xA0 0xD5).transmitState)) :=
  (solicitation_validated_iff sampleNetFirmware (sampleSolicited 0xA0 0xD5) 78
    (sampleSolicited_accepts _ _).1 ⟨by decide, by decide⟩).mpr
      (.inr (.inr ⟨by decide +kernel, [], rfl, by decide⟩))

/-- A solicitation with a wrong checksum is answered. -/
theorem wrong_checksum_answered :
    ¬ ∀ (fw : NetFirmware) (s : NetState) (len : Nat), Accepts s s.frame len →
      IsSolicitation s.frame →
      ∃ t, netEthReceive fw len s = .ok true t ∧
        (t.transmissions ≠ s.transmissions → ValidSolicitation s (packetLength s.frame)) ∧
        (¬ ValidSolicitation s (packetLength s.frame) → t.transmitState = s.transmitState) := by
  intro always
  have accepts := (sampleSolicited_accepts 0 0).1
  have solicitation : IsSolicitation (sampleSolicited 0 0).frame := ⟨by decide, by decide⟩
  obtain ⟨t, run, onlyValid, -⟩ :=
    always sampleNetFirmware (sampleSolicited 0 0) 78 accepts solicitation
  obtain ⟨u, again, outcome⟩ := solicitation_received sampleNetFirmware accepts solicitation
  rw [run] at again
  cases again
  rw [if_pos ⟨by decide, by decide⟩] at outcome
  obtain ⟨sent, transmits⟩ := outcome
  have valid := onlyValid (by rw [transmits]; exact List.cons_ne_self _ _)
  exact absurd valid.checksum (by decide +kernel)

end VineyardLoader
