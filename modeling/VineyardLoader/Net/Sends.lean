import VineyardLoader.Net.Loop

/-!
# What survives a send survives the loop

The network code touches its transmit buffers, and hands frames to the driver, in two places only:
where it sends a netboot message and where it sends an ICMPv6 message. So an invariant of the
addresses of the node, of the buffers and of what was sent holds through a whole loop, if it holds
after each of these sends and after the return of a buffer (`netPollLoop_preserves`). It does not
matter what arrives, or where a handler stops.
-/

set_option autoImplicit false

namespace VineyardLoader

/-! ## What is sent -/

/-- A netboot message of this node: an advertisement, or an acknowledgement. -/
structure OwnMessage (message : Memory) (len : Nat) : Prop where
  cmd : (message.loadLE 0 4 = cmdAdvertise ∧ len = 16) ∨ (message.loadLE 0 4 = cmdAck ∧ len = 32)
  length : message.load64 8 = len

/-- An ICMPv6 message of this node, with zero in the place of the checksum: an echo reply, or a
neighbor advertisement. -/
structure OwnIcmp (message : Memory) : Prop where
  type : message 0 = 129 ∨ message 0 = 136
  checksum : message.bytes 2 2 = [0, 0]

/-- The addresses of the node, the transmit buffers, and what was sent. -/
def NetState.wire (s : NetState) :
    (Memory × Memory × Memory) × Memory × Nat × Nat × Nat × List Transmission :=
  (s.station, s.mem, s.ethBufferPhys, s.ethBufpool, s.ethBufpoolAvail, s.transmissions)

/-- An invariant of the buffers and of what was sent, that holds after every send. -/
structure SurvivesSends (fw : NetFirmware) (holds : NetState → Prop) : Prop where
  wire : ∀ s t : NetState, t.wire = s.wire → holds s → holds t
  message : ∀ s message len, OwnMessage message len → holds s →
    holds (finalState (netUdp6Send fw message len s.messageAddress 57778 57777 s))
  icmp : ∀ s data source length dst, Reads data source s → OwnIcmp source → holds s →
    holds (finalState (netIcmp6Send fw data length dst s))

section Net

variable {fw : NetFirmware} {holds : NetState → Prop} {s : NetState}

/-- The two messages of this node with their lengths. -/
def OwnCmd (cmd dataLen : Nat) : Prop :=
  (cmd = cmdAdvertise ∧ dataLen = 0) ∨ (cmd = cmdAck ∧ dataLen = 16)

theorem OwnCmd.message {cmd dataLen : Nat} {message : Memory} (own : OwnCmd cmd dataLen)
    (field : message.loadLE 0 4 = cmd % 256 ^ 4)
    (length : message.load64 8 = (16 + dataLen) % 256 ^ 8) : OwnMessage message (16 + dataLen) := by
  rcases own with ⟨rfl, rfl⟩ | ⟨rfl, rfl⟩
  · exact ⟨.inl ⟨field, rfl⟩, length⟩
  · exact ⟨.inr ⟨field, rfl⟩, length⟩

theorem OwnMessage.withData {message : Memory} {len : Nat} (own : OwnMessage message len)
    (count : Nat) (data : Memory) : OwnMessage (message.overwrite 16 count data) len := by
  obtain ⟨field, length⟩ := own
  refine ⟨?_, ?_⟩
  · rwa [Memory.loadLE_overwrite_of_disjoint _ (by omega)]
  · rwa [Memory.load64, Memory.loadLE_overwrite_of_disjoint _ (by omega)]

/-- `netboot_cmd_send` hands on the message of its command with the data, unless there is no
memory for it. -/
theorem netbootCmdSend_message {cmd dataLen : Nat} (own : OwnCmd cmd dataLen)
    (data : Option Memory) (u : NetState) :
    ((fw.allocatePool u (16 + dataLen)).isNone ∧
        netbootCmdSend fw cmd data dataLen u = .error .exit u) ∨
      ∃ message block, OwnMessage message (16 + dataLen) ∧
        (∀ bytes ∈ data, message.bytes 16 dataLen = bytes.bytes 0 dataLen) ∧
        netbootCmdSend fw cmd data dataLen u = (do
          netUdp6Send fw message (16 + dataLen) u.messageAddress 57778 57777
          netFree fw block) u := by
  have header : ∀ bytes : Memory,
      OwnMessage ((bytes.storeLE 0 4 cmd).store64 8 (16 + dataLen)) (16 + dataLen) := by
    intro bytes
    refine own.message ?_ (Memory.loadLE_storeLE _ 8 8 _)
    rw [Memory.store64, Memory.storeLE, Memory.loadLE_overwrite_of_disjoint _ (by decide),
      Memory.loadLE_storeLE]
  have malloc : ((fw.allocatePool u (16 + dataLen)).isNone ∧
        netMalloc fw (16 + dataLen) u = .error .exit u) ∨
      ∃ block, netMalloc fw (16 + dataLen) u = .ok block u := by
    rw [netMalloc, bind_of_ok (netAllocatePool_run _ _)]
    cases fw.allocatePool u (16 + dataLen) with
    | none => exact .inl ⟨rfl, rfl⟩
    | some answer => exact .inr ⟨_, rfl⟩
  rcases malloc with ⟨nothing, refused⟩ | ⟨block, granted⟩
  · left
    rw [netbootCmdSend, bind_run, refused]
    exact ⟨nothing, rfl⟩
  · right
    rw [netbootCmdSend, bind_of_ok granted, NetState.messageAddress, bind_of_ok (get_run _)]
    cases data with
    | none =>
        refine ⟨_, block, header block.bytes, by simp, ?_⟩
        cases empty : netIp6Empty u.remoteIp6Addr <;> rfl
    | some data =>
        refine ⟨_, block, (header block.bytes).withData dataLen data, ?_, ?_⟩
        · rintro _ ⟨⟩
          exact Memory.bytes_overwrite _ _ _ _
        cases empty : netIp6Empty u.remoteIp6Addr <;> rfl

theorem ownIcmp_echoed (u : NetState) : OwnIcmp fun index => u.echoed (54 + index) where
  type := .inl (by simp [NetState.echoed, Memory.storeLE, Memory.overwrite])
  checksum := by simp [Memory.bytes_two, NetState.echoed, Memory.storeLE, Memory.overwrite]

theorem ownIcmp_advertisement (u : NetState) : OwnIcmp (neighborAdvertisement u) where
  type := .inr (by simp [neighborAdvertisement, Memory.storeLE, Memory.overwrite])
  checksum := by simp [Memory.bytes_two, neighborAdvertisement, Memory.storeLE, Memory.overwrite]

variable (survives : SurvivesSends fw holds)

include survives

/-- What only moves a transfer on, or reads the frame, keeps the invariant. -/
theorem SurvivesSends.of_keeps {α : Type} {program : Net α} (keeps : Keeps NetState.wire program) :
    Preserves holds holds program :=
  preserves_self_iff.mpr fun s here => survives.wire s _ (keeps s) here

theorem SurvivesSends.outside_iff : holds s.outside ↔ holds s :=
  ⟨survives.wire s.outside s rfl, survives.wire s s.outside rfl⟩

theorem SurvivesSends.cmdSend {cmd dataLen : Nat} (own : OwnCmd cmd dataLen)
    (data : Option Memory) : Preserves holds holds (netbootCmdSend fw cmd data dataLen) := by
  intro u here
  rcases @netbootCmdSend_message fw cmd dataLen own data u with ⟨-, refused⟩ |
    ⟨message, block, isOwn, -, sends⟩
  · rw [refused]
    refine ⟨nofun, fun _ _ same => ?_⟩
    cases same
    exact here
  · rw [sends]
    have sent := survives.message u message _ isOwn here
    obtain ⟨⟨⟩, v, run⟩ := @netUdp6Send_returns fw message (16 + dataLen) u.messageAddress 57778 57777 u
    rw [run] at sent
    rw [bind_of_ok run]
    exact survives.of_keeps (netFree_keeps block) v sent

theorem SurvivesSends.cmdReceive (data : Nat) :
    Preserves holds holds (netbootCmdReceive fw data) := by
  have same : (fun s : NetState => holds s.outside) = holds :=
    funext fun s => propext survives.outside_iff
  have acks : ∀ ack, Preserves holds holds (sendAck fw ack) := by
    intro ack
    refine Preserves.bind (Preserves.modify fun s here => survives.wire s _ rfl here) fun _ => ?_
    exact survives.cmdSend (.inr ⟨rfl, rfl⟩) _
  rw [← same] at acks ⊢
  exact netbootCmdReceive_preserves (fun _ here => here) acks
    (writeFile_preserves (fun _ here => here) fun s _ _ here => survives.wire s _ rfl here)

theorem SurvivesSends.icmpReceive (len : Nat) :
    Preserves holds holds (netIcmp6Receive fw 14 54 len) := by
  refine preserves_self_iff.mpr fun s here => ?_
  have sends : ∀ {data source noted frame}, Reads data source { s with frame := frame, frameReads := noted } →
      OwnIcmp source → ∀ length dst, holds (finalState (netIcmp6Send fw data length dst
        { s with frame := frame, frameReads := noted })) := fun reads own length dst =>
    survives.icmp _ _ _ _ _ reads own (survives.wire s _ rfl here)
  by_cases echo : s.frame.loadLE 54 1 = 128
  · obtain ⟨noted, run⟩ := @netIcmp6Receive_echo fw s echo len
    rw [run]
    exact sends (reads_frameBytes 54 len _) (ownIcmp_echoed s) _ _
  by_cases solicitation : s.frame.loadLE 54 1 = 135
  · obtain ⟨noted, run⟩ := @netIcmp6Receive_solicitation fw s len solicitation
    rw [run]
    split
    · exact sends (fun u _ => ⟨u.frameReads, rfl⟩) (ownIcmp_advertisement s) _ _
    · exact survives.wire s _ rfl here
  · obtain ⟨noted, run⟩ := @netIcmp6Receive_other fw s len echo solicitation
    rw [run]
    exact survives.wire s _ rfl here

theorem SurvivesSends.protocol (type len : Nat) :
    Preserves holds holds (receiveProtocol fw type len) := by
  refine Preserves.ite (fun _ => ?_) fun _ => Preserves.ite (fun _ => ?_) fun _ => Preserves.pure _
  · refine (survives.of_keeps (frameLE_keeps (fun _ _ => rfl) _ _)).bind fun port => ?_
    exact Preserves.ite (fun _ => survives.cmdReceive _) fun _ => Preserves.pure _
  · exact survives.icmpReceive len

/-- **What survives every send survives every frame.** -/
theorem SurvivesSends.ethReceive (len : Nat) : Preserves holds holds (netEthReceive fw len) := by
  refine preserves_self_iff.mpr fun s here => ?_
  by_cases accepts : Accepts s s.frame len
  · obtain ⟨noted, run⟩ := @netEthReceive_accepted fw s len accepts
    rw [run]
    refine preserves_self_iff.mp ?_ (s.heard noted) (survives.wire s _ rfl here)
    exact (survives.protocol _ _).bind fun _ => Preserves.pure _
  · obtain ⟨answer, noted, run⟩ := @netEthReceive_rejected fw s len accepts
    rw [run]
    exact survives.wire s _ rfl here

end Net

/-! ## Turns of the loop -/

/-- An invariant of the loop that holds after every send, and after a buffer was taken back. -/
structure SurvivesTurns (fw : PollFirmware) (holds : PollState → Prop) : Prop where
  sends : ∀ s : PollState, SurvivesSends fw.net fun net => holds { s with net := net }
  advertised : ∀ s : PollState, holds s → holds { s with netAdvertised := true }
  takeBack : ∀ s txBuf, fw.getStatus s = some txBuf → holds s →
    holds (finalState (takeBack txBuf s))

section Poll

variable {fw : PollFirmware} {holds : PollState → Prop} (survives : SurvivesTurns fw holds)

include survives

theorem SurvivesTurns.lift {α : Type} {program : Net α}
    (preserves : ∀ {inner : NetState → Prop}, SurvivesSends fw.net inner →
      Preserves inner inner program) : Preserves holds holds (liftNet program) := by
  refine preserves_self_iff.mpr fun s here => ?_
  have inside := preserves_self_iff.mp (preserves (survives.sends s)) s.net here
  unfold liftNet
  cases run : program s.net with
  | ok value net =>
      rw [run] at inside
      exact inside
  | error reason net =>
      rw [run] at inside
      exact inside

theorem SurvivesTurns.advertise : Preserves holds holds (pollAdvertise fw) := by
  have advertises : Preserves holds holds (liftNet (netAdvertise fw)) :=
    survives.lift fun inner => inner.cmdSend (.inl ⟨rfl, rfl⟩) none
  have timer : Preserves holds holds (netTimerSet fw) :=
    Preserves.get.bind fun _ => Preserves.ite (fun _ => Preserves.pure _) fun _ =>
      Preserves.ite (fun _ => Preserves.pure _) fun _ => Preserves.throw (fun _ here => here) _
  have expired : Preserves holds holds (netTimerExpired fw) :=
    Preserves.get.bind fun _ => Preserves.ite (fun _ => Preserves.pure _) fun _ => Preserves.pure _
  refine Preserves.get.bind fun _ => Preserves.ite (fun _ => ?_) fun _ => expired.bind fun _ => ?_
  · exact advertises.bind fun _ => timer.bind fun _ =>
      Preserves.modify fun s here => survives.advertised s here
  · exact Preserves.ite (fun _ => advertises.bind fun _ => timer) fun _ => Preserves.pure _

theorem SurvivesTurns.status : Preserves holds holds (pollStatus fw) := by
  refine preserves_self_iff.mpr fun s here => ?_
  rw [pollStatus, bind_of_ok (get_run _)]
  split
  · split
    · exact here
    · cases answer : fw.getStatus s with
      | none => exact here
      | some txBuf =>
          have taken := survives.takeBack s txBuf answer here
          obtain ⟨⟨⟩, middle, run⟩ := takeBack_returns txBuf s
          rw [run] at taken
          simp only
          rw [bind_of_ok run]
          exact taken
  · exact here

theorem SurvivesTurns.receive : Preserves holds holds (pollReceive fw) := by
  refine Preserves.get.bind fun s => Preserves.ite (fun _ => ?_) fun _ => ?_
  · exact Preserves.throw (fun _ here => here) _
  · cases fw.receive s with
    | frame data size =>
        refine Preserves.bind (Preserves.modify fun t here => ?_) fun _ => ?_
        · exact (survives.sends t).wire t.net _ rfl here
        · exact (survives.lift fun inner => inner.ethReceive size).bind fun _ => Preserves.pure _
    | notReady => exact Preserves.pure _
    | failed => exact Preserves.throw (fun _ here => here) _

theorem SurvivesTurns.poll : Preserves holds holds (netPoll fw) :=
  survives.advertise.bind fun _ => survives.status.bind fun _ =>
    Preserves.ite (fun _ => survives.receive) fun _ => Preserves.pure _

end Poll

/-- **What survives every send survives the loop**, whether the loop returns or stops. -/
theorem netPollLoop_preserves {turns : List PollFirmware} {holds : PollState → Prop}
    (survives : ∀ fw ∈ turns, SurvivesTurns fw holds) :
    Preserves holds holds (netPollLoop turns) := by
  induction turns with
  | nil => exact Preserves.get.bind fun _ => Preserves.pure _
  | cons fw turns ih =>
      have later := ih fun other member => survives other (List.mem_cons_of_mem _ member)
      refine Preserves.get.bind fun s => Preserves.ite (fun _ => ?_) fun _ => Preserves.pure _
      exact (survives fw List.mem_cons_self).poll.bind fun _ => later

end VineyardLoader
