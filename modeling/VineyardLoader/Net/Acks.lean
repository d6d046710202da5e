import VineyardLoader.Net.Sends
import VineyardLoader.Net.Transfer

/-!
# Acknowledgements of fragments

A fragment is acknowledged in any case. One that is ahead of the next one is acknowledged under
the number of the next one, which has not been received. The acknowledgements that leave the node
during a transfer are for stored fragments exactly when no fragment arrives ahead of the next one
(`fragment_acks_sound_iff`).

What leaves the node is a frame that is handed to the driver, and there is one only while a
transmit buffer is free. Between two messages the buffers come back, other frames arrive and
addresses are remembered. A run of messages leaves all of that open (`Receives`).
-/

set_option autoImplicit false

namespace VineyardLoader

/-! ## Frames with an acknowledgement -/

/-- A frame acknowledges a fragment. -/
def Acknowledges (frame : Memory) (fragment : Nat) : Prop :=
  messageCmd frame = cmdAck ∧ frame.loadLE 78 4 = cmdFileFragment ∧ frame.loadLE 86 8 = fragment

instance (frame : Memory) (fragment : Nat) : Decidable (Acknowledges frame fragment) :=
  inferInstanceAs (Decidable (_ ∧ _))

/-- A frame that was handed to the driver holds an acknowledgement. -/
def Transmission.Carries (sent : Transmission) (ack : Ack) : Prop :=
  ∀ frame : Memory, frame.bytes 0 sent.bytes.length = sent.bytes →
    messageCmd frame = cmdAck ∧ frame.loadLE 78 4 = ack.type % 2 ^ 32 ∧
      frame.loadLE 86 8 = ack.fileFragment % 2 ^ 64

/-- The frames that were handed to the driver between two states hold an acknowledgement. -/
def Sent (ack : Ack) (before after : NetState) : Prop :=
  ∃ new, after.transmissions = new ++ before.transmissions ∧ ∀ sent ∈ new, sent.Carries ack

section Sending

variable {fw : NetFirmware}

theorem Sent.nothing {ack : Ack} {before after : NetState}
    (same : after.transmissions = before.transmissions) : Sent ack before after :=
  ⟨[], same, nofun⟩

theorem Ack.encode_type (ack : Ack) : ack.encode.loadLE 0 4 = ack.type % 2 ^ 32 := by
  rw [Ack.encode, Memory.storeLE, Memory.loadLE_overwrite_of_disjoint _ (by decide)]
  exact Memory.loadLE_storeLE _ 0 4 _

theorem Ack.encode_fileFragment (ack : Ack) :
    ack.encode.loadLE 8 8 = ack.fileFragment % 2 ^ 64 := by
  rw [Ack.encode]
  exact Memory.loadLE_storeLE _ 8 8 _

/-- The address that a netboot message goes to is always found: it is that of the remembered
sender, or a multicast address. -/
theorem NetState.resolve_messageAddress (s : NetState) :
    ∃ mac, s.resolve s.messageAddress = some mac := by
  rw [NetState.messageAddress]
  split
  · by_cases multicast : s.remoteIp6Addr 0 = 0xFF
    · exact ⟨_, if_pos multicast⟩
    · exact ⟨_, resolve_heard multicast rfl⟩
  · exact ⟨_, if_pos rfl⟩

/-- A datagram with an acknowledgement as its message. -/
theorem HoldsPacket.acknowledgement {frame dstMac mac src dst message : Memory} {ack : Ack}
    (holds : HoldsPacket frame dstMac mac src dst 17 (udpPacket src dst message 32 57778 57777))
    (cmd : message.loadLE 0 4 = cmdAck)
    (data : message.bytes 16 16 = ack.encode.bytes 0 16) :
    messageCmd frame = cmdAck ∧ frame.loadLE 78 4 = ack.type % 2 ^ 32 ∧
      frame.loadLE 86 8 = ack.fileFragment % 2 ^ 64 := by
  have part : ∀ start size, start + size ≤ 16 →
      frame.bytes (78 + start) size = ack.encode.bytes start size := by
    intro start size inside
    apply Memory.bytes_congr
    intro index within
    have sent := Memory.eq_of_bytes_eq (holds.udp_part (show 16 + 16 ≤ 32 by decide))
      (show start + index < 16 by omega)
    have held := Memory.eq_of_bytes_eq data (show start + index < 16 by omega)
    rw [Nat.zero_add] at held
    rw [Nat.add_assoc, ← held, ← sent, ← Nat.add_assoc]
  refine ⟨?_, ?_, ?_⟩
  · exact (Memory.loadLE_of_bytes_eq (holds.udp_part (show 0 + 4 ≤ 32 by decide))).trans cmd
  · rw [← ack.encode_type]
    exact Memory.loadLE_of_bytes_eq (part 0 4 (by decide))
  · rw [← ack.encode_fileFragment]
    exact Memory.loadLE_of_bytes_eq (part 8 8 (by decide))

/-- **What an acknowledgement puts on the wire**: frames that hold it, and at least one if a
transmit buffer is free and there is memory for the message. -/
theorem sendAck_sent (fw : NetFirmware) (ack : Ack) (s : NetState) :
    Sent ack s (finalState (sendAck fw ack s)) ∧
      (s.ethBufpool ≠ 0 → (∀ asked, (fw.allocatePool asked 32).isSome) →
        (finalState (sendAck fw ack s)).transmissions ≠ s.transmissions) := by
  rw [sendAck, bind_of_ok (modify_run _ _)]
  generalize noted : ({ s with acks := s.acks ++ [ack] } : NetState) = u
  have transmissions : u.transmissions = s.transmissions := noted ▸ rfl
  have bufpool : u.ethBufpool = s.ethBufpool := noted ▸ rfl
  rcases netbootCmdSend_message (.inr ⟨rfl, rfl⟩) (some ack.encode) u with
    ⟨refuses, refused⟩ | ⟨message, block, own, data, sends⟩
  · rw [refused]
    refine ⟨.nothing transmissions, fun _ grants => ?_⟩
    have granted := grants u
    rw [Option.isNone_iff_eq_none.mp refuses] at granted
    cases granted
  · have cmd : message.loadLE 0 4 = cmdAck :=
      (own.cmd.resolve_left fun other => absurd other.2 (by decide)).1
    have freed : ∀ _ : Unit, Keeps NetState.transmissions (netFree fw block) :=
      fun _ => netFree_keeps block
    rw [Sent, sends, Keeps.after freed, ← transmissions]
    by_cases empty : u.ethBufpool = 0
    · rw [netUdp6Send_empty empty]
      exact ⟨Sent.nothing rfl, fun free => absurd (bufpool ▸ empty) free⟩
    · obtain ⟨mac, found⟩ := u.resolve_messageAddress
      obtain ⟨t, sent, run, transmits, bytes⟩ := @netUdp6Send_frame fw u u.messageAddress mac empty
        found message (16 + 16) 57778 57777 (by decide)
      rw [run]
      refine ⟨⟨[sent], transmits, ?_⟩, fun _ _ same => ?_⟩
      · intro other member frame holds
        rw [List.mem_singleton.mp member, bytes, packetFrame_length] at holds
        exact (packetFrame_fields holds).acknowledgement cmd (data _ rfl)
      · exact List.cons_ne_self sent _ (transmits.symm.trans same)

end Sending

/-! ## The handling of a fragment -/

section Fragment

variable {fw : NetFirmware} {s u : NetState} {frame : Memory} {info : Block}

theorem sendAck_netboot (ack : Ack) : Keeps NetState.netboot (sendAck fw ack) :=
  sendAck_keeps (fun _ => rfl) (fun _ _ => rfl) ack

/-- A fragment that is not the next one is acknowledged, and nothing else. -/
theorem takeFragment_stale (here : s.frame = frame)
    (other : fragmentId frame ≠ s.netboot.filePacketsTransferred) :
    ∃ u, u.netboot = s.netboot ∧ u.wire = s.wire ∧ takeFragment fw 62 s =
      sendAck fw ⟨cmdFileFragment, min (fragmentId frame) s.netboot.filePacketsTransferred⟩ u := by
  subst here
  refine ⟨(s.withRead 86 8).withRead 78 8, rfl, rfl, ?_⟩
  rw [takeFragment, bind_of_ok (get_run _), bind_of_ok (frameLE_run _ _ _),
    bind_of_ok (frameLE_run _ _ _), min_def_lt]
  exact congrFun (if_pos other) _

/-- The next fragment is stored and counted, and then acknowledged. -/
theorem takeFragment_next (here : s.frame = frame)
    (expected : fragmentId frame = s.netboot.filePacketsTransferred) :
    (∃ reason u, u.transmissions = s.transmissions ∧ takeFragment fw 62 s = .error reason u) ∨
      ∃ u, u.netboot.filePacketsTransferred = (s.netboot.filePacketsTransferred + 1) % 2 ^ 64 ∧
        u.wire = s.wire ∧ takeFragment fw 62 s =
          sendAck fw ⟨cmdFileFragment, s.netboot.filePacketsTransferred⟩ u := by
  subst here
  have taken : takeFragment fw 62 s = (do
      acceptFragment 62 (fragmentId s.frame) (fragmentLength s.frame)
      sendAck fw ⟨cmdFileFragment, s.netboot.filePacketsTransferred⟩)
        ((s.withRead 86 8).withRead 78 8) := by
    rw [takeFragment, bind_of_ok (get_run _), bind_of_ok (frameLE_run _ _ _),
      bind_of_ok (frameLE_run _ _ _)]
    exact congrFun (if_neg (not_not.mpr expected)) _
  have keeps : Keeps NetState.wire
      (acceptFragment 62 (fragmentId s.frame) (fragmentLength s.frame)) := by
    refine Keeps.get.bind fun _ => (frameBytes_keeps (fun _ _ => rfl) _ _).bind fun _ => ?_
    refine Keeps.bind (Keeps.modify fun _ => rfl) fun _ => ?_
    exact (Block.copy_keeps _ _ _ _).bind fun _ => Keeps.modify fun _ => rfl
  generalize begins : (s.withRead 86 8).withRead 78 8 = begun at taken
  have here : begun.frame = s.frame := begins ▸ rfl
  have netboot : begun.netboot = s.netboot := begins ▸ rfl
  have wire : begun.wire = s.wire := begins ▸ rfl
  cases accept : acceptFragment 62 (fragmentId s.frame) (fragmentLength s.frame) begun with
  | ok _ u =>
      obtain ⟨-, fileBuffer, -, progress⟩ := acceptFragment_ok accept here
      refine .inr ⟨u, ?_, (keeps.ok accept).trans wire, taken.trans (bind_of_ok accept)⟩
      rw [← netboot]
      exact congrArg (fun p => p.netboot.filePacketsTransferred) progress
  | error reason u =>
      have same : u.wire = s.wire := (keeps.error accept).trans wire
      refine .inl ⟨reason, u, congrArg (·.2.2.2.2.2) same, ?_⟩
      rw [taken, bind_run, accept]

/-- What the first half of the handling of a fragment sends, and how many fragments are counted
afterwards if it sent anything. -/
theorem takeFragment_sent (fw : NetFirmware) (here : s.frame = frame) :
    Sent ⟨cmdFileFragment, min (fragmentId frame) s.netboot.filePacketsTransferred⟩ s
        (finalState (takeFragment fw 62 s)) ∧
      ((finalState (takeFragment fw 62 s)).transmissions = s.transmissions ∨
        (finalState (takeFragment fw 62 s)).netboot.filePacketsTransferred =
          if fragmentId frame = s.netboot.filePacketsTransferred then
            (s.netboot.filePacketsTransferred + 1) % 2 ^ 64
          else s.netboot.filePacketsTransferred) ∧
      (fragmentId frame ≠ s.netboot.filePacketsTransferred →
        (finalState (takeFragment fw 62 s)).netboot = s.netboot ∧
          (s.ethBufpool ≠ 0 → (∀ asked, (fw.allocatePool asked 32).isSome) →
            (finalState (takeFragment fw 62 s)).transmissions ≠ s.transmissions)) := by
  by_cases expected : fragmentId frame = s.netboot.filePacketsTransferred
  · rw [if_pos expected, expected, Nat.min_self]
    rcases takeFragment_next here expected with ⟨reason, u, nothing, stopped⟩ |
      ⟨u, packets, wire, acked⟩
    · rw [stopped]
      exact ⟨.nothing nothing, .inl nothing, fun other => absurd rfl other⟩
    · rw [acked, sendAck_netboot]
      have sent := (sendAck_sent fw ⟨cmdFileFragment, s.netboot.filePacketsTransferred⟩ u).1
      rw [Sent, show u.transmissions = s.transmissions from congrArg (·.2.2.2.2.2) wire] at sent
      exact ⟨sent, .inr packets, fun other => absurd rfl other⟩
  · obtain ⟨u, netboot, wire, acked⟩ := takeFragment_stale here expected
    rw [if_neg expected, acked, sendAck_netboot, netboot]
    obtain ⟨sent, sends⟩ := sendAck_sent fw
      ⟨cmdFileFragment, min (fragmentId frame) s.netboot.filePacketsTransferred⟩ u
    rw [Sent, show u.transmissions = s.transmissions from congrArg (·.2.2.2.2.2) wire] at sent
    rw [show u.transmissions = s.transmissions from congrArg (·.2.2.2.2.2) wire,
      show u.ethBufpool = s.ethBufpool from congrArg (·.2.2.2.1) wire] at sends
    exact ⟨sent, .inr rfl, fun _ => ⟨rfl, sends⟩⟩

/-- The end of a transfer sends nothing. It leaves the transfer as it is where it stops. -/
theorem finishTransfer_final :
    (finalState (finishTransfer fw info s)).transmissions = s.transmissions ∧
      ((finalState (finishTransfer fw info s)).netboot = s.netboot ∨
        (finalState (finishTransfer fw info s)).netboot.state ≠ .fileTransfer) := by
  cases run : finishTransfer fw info s with
  | ok _ t =>
      have keeps : Keeps NetState.transmissions (finishTransfer fw info) := by
        refine (openFile_keeps (fun _ _ => rfl) info).bind fun path => ?_
        refine (fileData_keeps info).bind fun data => ?_
        refine Keeps.bind (Keeps.get.bind fun _ => (netErr_keeps _).bind fun _ => ?_) fun _ => ?_
        · exact Keeps.modify fun _ => rfl
        · exact Keeps.modify fun _ => rfl
      obtain ⟨-, path, data, -, progress⟩ := finishTransfer_ok run
      have ended : t.netboot = _ := congrArg Progress.netboot progress
      refine ⟨keeps.ok run, .inr ?_⟩
      rw [finalState, ended]
      exact nofun
  | error reason t =>
      have same : (t.transmissions, t.netboot) = (s.transmissions, s.netboot) :=
        @finishTransfer_error fw s t _ (fun s => (s.transmissions, s.netboot)) info reason
          (fun _ _ => rfl) run
      exact ⟨congrArg Prod.fst same, .inl (congrArg Prod.snd same)⟩

/-- The second half of the handling of a fragment sends nothing. It leaves the transfer as it is,
or it ends it with the last byte. -/
theorem receiveFragment_final (hasInfo : s.netboot.fileInfo = some info) :
    (finalState (receiveFragment fw 62 s)).transmissions =
        (finalState (takeFragment fw 62 s)).transmissions ∧
      ((finalState (receiveFragment fw 62 s)).netboot =
          (finalState (takeFragment fw 62 s)).netboot ∨
        ((finalState (takeFragment fw 62 s)).netboot.fileBytesTransferred = info.fileSize ∧
          (finalState (receiveFragment fw 62 s)).netboot.state ≠ .fileTransfer)) := by
  rw [receiveFragment, bind_of_ok (get_run _), hasInfo, Block.deref, bind_of_ok (pure_run _ _),
    bind_run]
  cases takeFragment fw 62 s with
  | error reason taken => exact ⟨rfl, .inl rfl⟩
  | ok _ taken =>
      simp only
      rw [bind_of_ok (get_run _)]
      split
      · rename_i all
        obtain ⟨transmissions, netboot⟩ := @finishTransfer_final fw taken info
        exact ⟨transmissions, netboot.imp_right fun ended => ⟨all, ended⟩⟩
      · exact ⟨rfl, .inl rfl⟩

/-- During a transfer a fragment goes through its own handling, and the dispatch has nothing for
it. -/
theorem receiveMessage_fragment (fw : NetFirmware) (transfer : s.netboot.state = .fileTransfer)
    (isFragment : messageCmd frame = cmdFileFragment) :
    ∃ u, u.frame = frame ∧ u.netboot = s.netboot ∧ u.wire = s.wire ∧
      (finalState (receiveMessage fw frame s)).netboot =
        (finalState (receiveFragment fw 62 u)).netboot ∧
      (finalState (receiveMessage fw frame s)).transmissions =
        (finalState (receiveFragment fw 62 u)).transmissions := by
  have handled : receiveTransfer fw 62 { s with frame := frame } =
      receiveFragment fw 62 (NetState.withRead { s with frame := frame } 62 4) := by
    rw [receiveTransfer, bind_of_ok (get_run _), if_pos transfer, bind_of_ok (frameLE_run _ _ _)]
    exact congrFun (if_pos isFragment) _
  refine ⟨NetState.withRead { s with frame := frame } 62 4, rfl, rfl, rfl, ?_⟩
  rw [receiveMessage, bind_of_ok (modify_run _ _), messageStart, netbootCmdReceive, bind_run, handled]
  generalize begins : NetState.withRead { s with frame := frame } 62 4 = u
  have here : u.frame = frame := begins ▸ rfl
  cases run : receiveFragment fw 62 u with
  | ok _ t =>
      have same : t.frame.loadLE 62 4 = cmdFileFragment :=
        (receiveFragment_ok run here).1 ▸ isFragment
      simp only
      rw [bind_of_ok (frameLE_run _ _ _), same]
      exact ⟨rfl, rfl⟩
  | error reason t => exact ⟨rfl, rfl⟩

/-- **What a fragment during a transfer sends**, whichever way its handling ends: frames that
acknowledge it, under its own number or that of the next one. If anything was sent, the fragment
is counted when it is the next one, and not otherwise, or the transfer has ended. A fragment that
is not the next one leaves an unfinished transfer as it is, and it is acknowledged if a transmit
buffer is free. -/
theorem receiveMessage_sent (fw : NetFirmware) (transfer : s.netboot.state = .fileTransfer)
    (isFragment : messageCmd frame = cmdFileFragment) (hasInfo : s.netboot.fileInfo = some info) :
    Sent ⟨cmdFileFragment, min (fragmentId frame) s.netboot.filePacketsTransferred⟩ s
        (finalState (receiveMessage fw frame s)) ∧
      ((finalState (receiveMessage fw frame s)).transmissions = s.transmissions ∨
        (finalState (receiveMessage fw frame s)).netboot.state ≠ .fileTransfer ∨
        (finalState (receiveMessage fw frame s)).netboot.filePacketsTransferred =
          if fragmentId frame = s.netboot.filePacketsTransferred then
            (s.netboot.filePacketsTransferred + 1) % 2 ^ 64
          else s.netboot.filePacketsTransferred) ∧
      (fragmentId frame ≠ s.netboot.filePacketsTransferred →
        s.netboot.fileBytesTransferred ≠ info.fileSize →
        (finalState (receiveMessage fw frame s)).netboot = s.netboot ∧
          (s.ethBufpool ≠ 0 → (∀ asked, (fw.allocatePool asked 32).isSome) →
            (finalState (receiveMessage fw frame s)).transmissions ≠ s.transmissions)) := by
  obtain ⟨u, here, netboot, wire, endNetboot, endTransmissions⟩ :=
    receiveMessage_fragment fw transfer isFragment
  have transmissions : u.transmissions = s.transmissions := congrArg (·.2.2.2.2.2) wire
  have bufpool : u.ethBufpool = s.ethBufpool := congrArg (·.2.2.2.1) wire
  obtain ⟨sent, counted, stale⟩ := takeFragment_sent fw here
  obtain ⟨same, ends⟩ := @receiveFragment_final fw u info (netboot ▸ hasInfo)
  rw [Sent, transmissions, netboot] at sent
  rw [transmissions, netboot] at counted
  rw [transmissions, netboot, bufpool] at stale
  rw [Sent, endNetboot, endTransmissions, same]
  refine ⟨sent, ?_, fun other unfinished => ?_⟩
  · rcases ends with kept | ⟨-, ended⟩
    · rw [kept]
      exact counted.imp_right .inr
    · exact .inr (.inl ended)
  · obtain ⟨kept, sends⟩ := stale other
    rcases ends with still | ⟨all, -⟩
    · exact ⟨still.trans kept, sends⟩
    · exact absurd (kept ▸ all) unfinished

/-- Outside of a transfer, a message that is no announcement sends nothing. -/
theorem receiveMessage_silent (fw : NetFirmware)
    (notFragment : ¬ (s.netboot.state = .fileTransfer ∧ messageCmd frame = cmdFileFragment))
    (notInit : messageCmd frame ≠ cmdFileSendInit) :
    (finalState (receiveMessage fw frame s)).transmissions = s.transmissions := by
  have handled : ∃ u, u.frame = frame ∧ u.transmissions = s.transmissions ∧
      receiveTransfer fw 62 { s with frame := frame } = .ok () u := by
    rw [receiveTransfer, bind_of_ok (get_run _)]
    split
    · rename_i transfer
      rw [bind_of_ok (frameLE_run _ _ _)]
      split
      · rename_i isFragment
        exact absurd ⟨transfer, isFragment⟩ notFragment
      · exact ⟨NetState.withRead { s with frame := frame } 62 4, rfl, rfl, rfl⟩
    · exact ⟨{ s with frame := frame }, rfl, rfl, rfl⟩
  obtain ⟨u, here, same, run⟩ := handled
  rw [receiveMessage, bind_of_ok (modify_run _ _), messageStart, netbootCmdReceive, bind_of_ok run,
    bind_of_ok (frameLE_run _ _ _), here]
  exact (dispatch_keeps (fun _ _ _ => rfl) notInit _).trans same

end Fragment

/-! ## Runs of messages -/

/-- A list of messages is handled. Between two messages anything may happen that leaves the
transfer as it is: buffers come back, other frames arrive, other senders are remembered. -/
inductive Receives (fw : NetFirmware) (s : NetState) : List Memory → NetState → Prop
  | start : Receives fw s [] s
  | between {frames : List Memory} {u v : NetState} (received : Receives fw s frames u)
      (same : v.progress = u.progress) : Receives fw s frames v
  | message {frames : List Memory} {frame : Memory} {u v : NetState}
      (received : Receives fw s frames u) (run : receiveMessage fw frame u = .ok () v) :
      Receives fw s (frames ++ [frame]) v

/-- Whatever acknowledgement of a fragment the handling of a message hands to the driver, the
fragment is stored afterwards, or the transfer has ended. -/
def AcksSound (before after : NetState) : Prop :=
  ∃ new, after.transmissions = new ++ before.transmissions ∧ ∀ sent ∈ new,
    ∀ frame : Memory, frame.bytes 0 sent.bytes.length = sent.bytes →
      ∀ fragment, Acknowledges frame fragment →
        fragment < after.netboot.filePacketsTransferred ∨ after.netboot.state ≠ .fileTransfer

section Acks

variable {fw : NetFirmware} {file path : List UInt8} {dataPerPacket count : Nat} {frame init : Memory}
  {info : Block} {s u : NetState} {earlier : List Memory}

theorem AcksSound.of_silent {before after : NetState}
    (same : after.transmissions = before.transmissions) : AcksSound before after :=
  ⟨[], same, nofun⟩

section Receiving

variable (fw) (receiving : Receiving file dataPerPacket info count u.progress)
  (size : info.fileSize = file.length) (genuine : Genuine file dataPerPacket frame)
include receiving size genuine

/-- The acknowledgement of a fragment that is not ahead of the next one is sound. -/
theorem Receiving.acksSound (positive : 0 < dataPerPacket) (inOrder : fragmentId frame ≤ count) :
    AcksSound u (finalState (receiveMessage fw frame u)) := by
  have small : file.length < 2 ^ 64 := size ▸ Memory.load64_lt _ _
  have packets : u.netboot.filePacketsTransferred = count := receiving.stored.packets
  have countable : count + 1 < 2 ^ 64 := by
    have enough : count ≤ count * dataPerPacket := Nat.le_mul_of_pos_right count positive
    have more := receiving.more
    omega
  obtain ⟨⟨new, transmits, carries⟩, counted, -⟩ :=
    receiveMessage_sent fw receiving.state genuine.1 receiving.hasInfo
  rw [packets, Nat.min_eq_left inOrder] at carries
  rw [packets] at counted
  refine ⟨new, transmits, fun sent member other holds fragment acks => ?_⟩
  have isNumber : fragment = fragmentId frame :=
    acks.2.2.symm.trans ((carries sent member other holds).2.2.trans
      (Nat.mod_eq_of_lt (Memory.load64_lt _ _)))
  rcases counted with nothing | ended | isCount
  · rw [nothing] at transmits
    rw [List.self_eq_append_left.mp transmits] at member
    cases member
  · exact .inr ended
  · left
    rw [isCount, isNumber]
    split
    · rw [Nat.mod_eq_of_lt countable]
      omega
    · omega

/-- The acknowledgement of a fragment that is ahead of the next one is not sound. It is sent if
a transmit buffer is free and there is memory for it. -/
theorem Receiving.acks_ahead (ahead : count < fragmentId frame) :
    (AcksSound u (finalState (receiveMessage fw frame u)) →
      (finalState (receiveMessage fw frame u)).transmissions = u.transmissions) ∧
    (u.ethBufpool ≠ 0 → (∀ asked, (fw.allocatePool asked 32).isSome) →
      (finalState (receiveMessage fw frame u)).transmissions ≠ u.transmissions) := by
  have packets : u.netboot.filePacketsTransferred = count := receiving.stored.packets
  have bytes : u.netboot.fileBytesTransferred = min (count * dataPerPacket) file.length :=
    receiving.stored.bytes
  have more := receiving.more
  obtain ⟨⟨new, transmits, carries⟩, -, stale⟩ :=
    receiveMessage_sent fw receiving.state genuine.1 receiving.hasInfo
  rw [packets, Nat.min_eq_right (by omega)] at carries
  rw [packets] at stale
  obtain ⟨same, sends⟩ := stale (by omega) (by rw [bytes, size]; omega)
  refine ⟨fun sound => ?_, sends⟩
  obtain ⟨emitted, again, stored⟩ := sound
  obtain rfl : new = emitted := List.append_cancel_right (transmits.symm.trans again)
  cases new with
  | nil => exact transmits
  | cons sent new =>
      have holds := bytes_getD sent.bytes
      have carried := carries sent List.mem_cons_self _ holds
      have number : count % 2 ^ 64 = count :=
        Nat.mod_eq_of_lt (ahead.trans (Memory.load64_lt _ _))
      rcases stored sent List.mem_cons_self _ holds count
        ⟨carried.1, carried.2.1, carried.2.2.trans number⟩ with below | ended
      · rw [same, packets] at below
        exact absurd below (Nat.lt_irrefl _)
      · rw [same] at ended
        exact absurd receiving.state ended

end Receiving

/-- The state of the transfer after an announcement and more messages. -/
theorem Receives.status (idle : s.netboot.state ≠ .fileTransfer) (reset : IdleReset s.progress)
    (nonempty : file ≠ []) (positive : 0 < dataPerPacket)
    (announces : Announces init file dataPerPacket path) {frames : List Memory}
    (received : Receives fw s frames u) :
    (frames = [] → u.progress = s.progress) ∧
      ∀ earlier, frames = init :: earlier →
        (∀ frame ∈ earlier, Expected file dataPerPacket frame) →
        ∃ info, info.fileSize = file.length ∧
          Status file dataPerPacket info s.progress.fileWrites (acceptedCount earlier)
            u.progress := by
  induction received with
  | start => exact ⟨fun _ => rfl, nofun⟩
  | between _ same ih => exact same ▸ ih
  | @message frames frame u v _ run ih =>
      refine ⟨fun empty => absurd empty (by simp), fun earlier split messages => ?_⟩
      have outcome := receiveMessage_outcome run
      cases frames with
      | nil =>
          obtain ⟨rfl, rfl⟩ : frame = init ∧ [] = earlier := List.cons.inj split
          rw [ih.1 rfl] at outcome
          obtain ⟨info, size, -, status, -⟩ := announces.status nonempty reset idle outcome
          exact ⟨info, size, status⟩
      | cons first frames =>
          obtain ⟨rfl, rfl⟩ : first = init ∧ frames ++ [frame] = earlier := List.cons.inj split
          obtain ⟨info, size, status⟩ := ih.2 frames rfl fun other member =>
            messages other (List.mem_append_left _ member)
          refine ⟨info, size, ?_⟩
          rw [acceptedCount, List.foldl_append]
          exact status.step positive size
            (messages frame (List.mem_append_right _ List.mem_cons_self)) outcome

/-- **The acknowledgements of a transfer are sound exactly while no fragment arrives ahead of the
next one.** After the announcement of a file and any messages of its transfer, what the next
message hands to the driver is sound if it is no fragment that is ahead. That holds for every
firmware, also where the handling stops. A fragment that is ahead is sound only if nothing is
handed to the driver, and something is handed to it whenever a transmit buffer is free and there
is memory for the acknowledgement. -/
theorem fragment_acks_sound_iff (reached : Reached fw (fun _ _ => True) s)
    (idle : s.netboot.state ≠ .fileTransfer) (nonempty : file ≠ []) (positive : 0 < dataPerPacket)
    (announces : Announces init file dataPerPacket path)
    (messages : ∀ other ∈ frame :: earlier, Genuine file dataPerPacket other ∨ Unrelated other)
    (received : Receives fw s (init :: earlier) u) :
    ((messageCmd frame = cmdFileFragment → fragmentId frame ≤ acceptedCount earlier) →
      AcksSound u (finalState (receiveMessage fw frame u))) ∧
    (messageCmd frame = cmdFileFragment → acceptedCount earlier < fragmentId frame →
      (AcksSound u (finalState (receiveMessage fw frame u)) →
        (finalState (receiveMessage fw frame u)).transmissions = u.transmissions) ∧
      (u.ethBufpool ≠ 0 → (∀ asked, (fw.allocatePool asked 32).isSome) →
        (finalState (receiveMessage fw frame u)).transmissions ≠ u.transmissions)) := by
  have message : Expected file dataPerPacket frame := messages frame List.mem_cons_self
  obtain ⟨info, size, status⟩ := (received.status idle (reached_idleReset reached) nonempty positive
    announces).2 earlier rfl fun other member => messages other (List.mem_cons_of_mem _ member)
  rcases status with ⟨receiving, -⟩ | done
  · constructor
    · intro inOrder
      by_cases isFragment : messageCmd frame = cmdFileFragment
      · exact receiving.acksSound fw size (message.genuine isFragment) positive (inOrder isFragment)
      · exact .of_silent (receiveMessage_silent fw (fun both => isFragment both.2) message.notInit)
    · intro isFragment ahead
      exact receiving.acks_ahead fw size (message.genuine isFragment) ahead
  · constructor
    · intro _
      exact .of_silent (receiveMessage_silent fw (fun both => done.not_transfer both.1)
        message.notInit)
    · intro isFragment ahead
      rw [done.all] at ahead
      exact absurd (message.genuine isFragment).2.1 (Nat.lt_asymm ahead)

end Acks

/-! ## A fragment ahead of the next one -/

/-- Start-up with two transmit buffers. -/
def twoBuffers : NetState :=
  { sampleNetState with
    mem := Memory.store64 (fun _ => 0) 0x200000 0x200800
    ethBufpoolAvail := 2 }

/-- The file of three bytes has been announced, and the announcement has been acknowledged. -/
def announcedState : NetState :=
  finalState (receiveMessage sampleNetFirmware (initFrame 3 2 2 [0x61, 0]) twoBuffers)

theorem announcedState_received :
    Receives sampleNetFirmware twoBuffers [initFrame 3 2 2 [0x61, 0]] announcedState :=
  Receives.message .start (ok_of_returned (by decide +kernel))

theorem fragment_acks_sound_iff_sample :
    AcksSound announcedState
        (finalState (receiveMessage sampleNetFirmware (fragmentFrame 0 [7, 8]) announcedState)) ∧
      ¬ AcksSound announcedState
        (finalState (receiveMessage sampleNetFirmware (fragmentFrame 1 [9]) announcedState)) := by
  have start : Reached sampleNetFirmware (fun _ _ => True) twoBuffers := .start rfl
  have genuine : ∀ frame ∈ [fragmentFrame 1 [9], fragmentFrame 0 [7, 8]],
      ∀ other ∈ [frame], Genuine [7, 8, 9] 2 other ∨ Unrelated other := by
    intro frame member other same
    rw [List.mem_singleton.mp same]
    exact .inl (fragmentFrame_genuine frame member)
  have sound : ∀ frame ∈ [fragmentFrame 1 [9], fragmentFrame 0 [7, 8]], _ := fun frame member =>
    fragment_acks_sound_iff start (by decide) (by decide) (by decide) initFrame_announces
      (genuine frame member) announcedState_received
  obtain ⟨unsound, emitted⟩ := (sound (fragmentFrame 1 [9]) List.mem_cons_self).2
    (by decide +kernel) (by decide +kernel)
  refine ⟨(sound _ (by simp)).1 fun _ => by decide +kernel, fun wrong => ?_⟩
  exact emitted (by decide +kernel) (fun _ => rfl) (unsound wrong)

/-- **A fragment that was not received is acknowledged.** The second fragment of the file arrives
first. Fragment 0 is acknowledged, in a frame that the driver takes, and no fragment is stored. -/
theorem missing_fragment_acknowledged :
    (¬ ∀ (fw : NetFirmware) (s u : NetState) (init frame : Memory) (earlier : List Memory)
        (file path : List UInt8) (dataPerPacket : Nat), fw.Grants →
      Reached fw (fun _ _ => True) s → s.netboot.state ≠ .fileTransfer → file ≠ [] →
      0 < dataPerPacket → Announces init file dataPerPacket path →
      (∀ other ∈ frame :: earlier, Genuine file dataPerPacket other) →
      Receives fw s (init :: earlier) u → AcksSound u (finalState (receiveMessage fw frame u))) ∧
    ∃ after, receiveMessage sampleNetFirmware (fragmentFrame 1 [9]) announcedState = .ok () after ∧
      after.transmissions.head?.map (fun sent => (sent.taken, sent.bytes.drop 62)) =
        some (true, [7, 0, 0, 0, 0xAA, 0xAA, 0xAA, 0xAA, 32, 0, 0, 0, 0, 0, 0, 0,
          6, 0, 0, 0, 0, 0, 0, 0, 0, 0, 0, 0, 0, 0, 0, 0]) ∧
      after.netboot.state = .fileTransfer ∧ after.netboot.filePacketsTransferred = 0 := by
  constructor
  · intro always
    have genuine : ∀ other ∈ [fragmentFrame 1 [9]], Genuine [7, 8, 9] 2 other := by
      intro other member
      rw [List.mem_singleton.mp member]
      exact fragmentFrame_genuine _ List.mem_cons_self
    have start : Reached sampleNetFirmware (fun _ _ => True) twoBuffers := .start rfl
    have sound := always sampleNetFirmware twoBuffers announcedState (initFrame 3 2 2 [0x61, 0])
      (fragmentFrame 1 [9]) [] [7, 8, 9] [0x61] 2 sampleNetFirmware_grants start (by decide)
      (by decide) (by decide) initFrame_announces genuine announcedState_received
    obtain ⟨new, transmits, stored⟩ := sound
    have emitted : (finalState (receiveMessage sampleNetFirmware (fragmentFrame 1 [9])
        announcedState)).transmissions ≠ announcedState.transmissions := by decide +kernel
    have acks : ∀ sent ∈ (finalState (receiveMessage sampleNetFirmware (fragmentFrame 1 [9])
        announcedState)).transmissions.head?,
        Acknowledges (fun index => sent.bytes.getD index 0) 0 := by decide +kernel
    rw [transmits] at emitted acks
    cases new with
    | nil => exact emitted rfl
    | cons sent new =>
        have none := stored sent List.mem_cons_self _ (bytes_getD sent.bytes) 0 (acks sent rfl)
        exact absurd none (by decide +kernel)
  · exact ⟨_, ok_of_returned (by decide +kernel), by decide +kernel, by decide +kernel,
      by decide +kernel⟩

end VineyardLoader
