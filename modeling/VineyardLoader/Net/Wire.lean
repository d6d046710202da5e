import VineyardLoader.Foundation.Traces
import VineyardLoader.Net.Replies
import VineyardLoader.Net.Volume

/-!
# Frames and messages

Most frames that arrive carry no netboot message for this node. Whatever such a frame is, it is
handled to its end, and it leaves the transfer, the volume and the flags of the polling loop as
they were (`netEthReceive_other`). A frame with a netboot message is handled as the message
(`netEthReceive_netboot`).

A message moves the transfer on, sets a flag, or completes a file (`receiveMessage_step`). It
resets the machine only if it is one of three commands (`receiveMessage_reset`).
-/

set_option autoImplicit false

namespace VineyardLoader

/-! ## The receiver of messages -/

/-- What netboot messages act on: the transfer with the notes about it, the flags of the polling
loop, and the volume. -/
structure Receiver where
  transfer : Progress
  pollContinue : Bool
  stopAdvertising : Bool
  volume : Volume

def NetState.receiver (s : NetState) : Receiver :=
  ⟨s.progress, s.netPollContinue, s.netStopAdvertising, s.volume⟩

/-- The addresses of the node. -/
def NetState.station (s : NetState) : Memory × Memory × Memory :=
  (s.llMacAddr, s.ip6LlAddr, s.ip6SnmAddr)

/-- The commands that end the polling loop without a reset. -/
def endsPolling (frame : Memory) : Bool :=
  messageCmd frame == cmdFwsetup || messageCmd frame == cmdBoot

/-- The command that stops the advertisements. -/
def stopsAdvertising (frame : Memory) : Bool := messageCmd frame == cmdStopAdvertising

/-- The commands that may reset the machine. -/
def mayReset (frame : Memory) : Bool :=
  messageCmd frame == cmdFwsetup || messageCmd frame == cmdShutdown || messageCmd frame == cmdReboot

/-- What a message does to the receiver. -/
structure Receiver.Step (before : Receiver) (frame : Memory) (after : Receiver) : Prop where
  outcome : ∃ fw, Outcome fw frame before.transfer after.transfer
  pollContinue : after.pollContinue = (before.pollContinue && !endsPolling frame)
  stopAdvertising : after.stopAdvertising = (before.stopAdvertising || stopsAdvertising frame)
  volume : ∃ new, after.transfer.fileWrites = before.transfer.fileWrites ++ new ∧
    after.volume = new.foldl Volume.write before.volume
  path : after.transfer.fileWrites = before.transfer.fileWrites ∨
    ∃ info write, before.transfer.netboot.fileInfo = some info ∧ NamesPath info write.path ∧
      after.transfer.fileWrites = before.transfer.fileWrites ++ [write]

/-! ## The two flags -/

section Flags

variable {fw : NetFirmware} {s t : NetState} {frame : Memory}

/-- The flags of the polling loop. -/
def NetState.flags (s : NetState) : Bool × Bool := (s.netPollContinue, s.netStopAdvertising)

theorem sendAck_flags (ack : Ack) : Keeps NetState.flags (sendAck fw ack) :=
  sendAck_keeps (fun _ => rfl) (fun _ _ => rfl) ack

theorem receiveTransfer_flags : Keeps NetState.flags (receiveTransfer fw 62) := by
  have reads : ∀ offset width, Keeps NetState.flags (frameLE offset width) :=
    frameLE_keeps fun _ _ => rfl
  have accepts : ∀ fragmentId dataLen, Keeps NetState.flags (acceptFragment 62 fragmentId dataLen) := by
    intro fragmentId dataLen
    refine Keeps.get.bind fun _ => (frameBytes_keeps (fun _ _ => rfl) _ _).bind fun _ => ?_
    refine Keeps.bind (Keeps.modify fun _ => rfl) fun _ => ?_
    exact (Block.copy_keeps _ _ _ _).bind fun _ => Keeps.modify fun _ => rfl
  have takes : Keeps NetState.flags (takeFragment fw 62) := by
    refine Keeps.get.bind fun _ => (reads _ _).bind fun _ => (reads _ _).bind fun _ => ?_
    refine Keeps.ite (fun _ => sendAck_flags _) fun _ => ?_
    exact (accepts _ _).bind fun _ => sendAck_flags _
  have finishes : ∀ info, Keeps NetState.flags (finishTransfer fw info) := by
    intro info
    refine (openFile_keeps (fun _ _ => rfl) info).bind fun _ => (fileData_keeps info).bind fun _ => ?_
    refine Keeps.bind (Keeps.get.bind fun _ => (netErr_keeps _).bind fun _ => ?_) fun _ => ?_
    · exact Keeps.modify fun _ => rfl
    · exact Keeps.modify fun _ => rfl
  refine Keeps.get.bind fun _ => Keeps.ite (fun _ => ?_) fun _ => Keeps.pure _
  refine (reads _ _).bind fun _ => Keeps.ite (fun _ => ?_) fun _ => Keeps.pure _
  refine Keeps.get.bind fun _ => (Block.deref_keeps _).bind fun info => takes.bind fun _ => ?_
  exact Keeps.get.bind fun _ => Keeps.ite (fun _ => finishes info) fun _ => Keeps.pure _

theorem receiveInit_flags : Keeps NetState.flags (receiveInit fw 62) := by
  have informs : Keeps NetState.flags (receiveInfo fw 62) := by
    refine (frameLE_keeps (fun _ _ => rfl) _ _).bind fun _ => ?_
    refine Keeps.bind (Keeps.modify fun _ => rfl) fun _ => (netAllocatePool_keeps _).bind fun _ => ?_
    refine Keeps.get.bind fun _ => (frameBytes_keeps (fun _ _ => rfl) _ _).bind fun _ => ?_
    exact Block.copy_keeps _ _ _ _
  refine informs.bind fun fileInfo => Keeps.bind ?_ fun _ => sendAck_flags _
  refine Keeps.bind (Keeps.modify fun _ => rfl) fun _ => (Block.deref_keeps _).bind fun _ => ?_
  refine (netAllocatePool_keeps _).bind fun _ => Keeps.get.bind fun _ => ?_
  exact Keeps.modify fun _ => rfl

/-- What the dispatch does to the flags where it returns. -/
theorem dispatch_flags {cmd : Nat} (run : dispatch fw 62 cmd s = .ok () t) :
    t.flags = (s.netPollContinue && !(cmd == cmdFwsetup || cmd == cmdBoot),
      s.netStopAdvertising || cmd == cmdStopAdvertising) := by
  rw [dispatch] at run
  split at run
  · rename_i fwsetup
    subst fwsetup
    rw [bind_of_ok (modify_run _ _), bind_of_ok (get_run _)] at run
    split at run
    · cases run
    · cases run
      simp [NetState.flags, cmdFwsetup, cmdStopAdvertising]
  split at run
  · rename_i stop
    subst stop
    cases run
    simp [NetState.flags, cmdFwsetup, cmdBoot, cmdStopAdvertising]
  split at run
  · cases run
  split at run
  · cases run
  rename_i notFwsetup notStop notShutdown notReboot
  split at run
  · rename_i init
    have kept : t.flags = s.flags := receiveInit_flags.ok run
    subst init
    rw [kept]
    simp [NetState.flags, cmdFwsetup, cmdBoot, cmdStopAdvertising, cmdFileSendInit]
  split at run
  · rename_i boot
    subst boot
    cases run
    simp [NetState.flags, cmdBoot, cmdStopAdvertising]
  · rename_i notInit notBoot
    cases run
    simp [NetState.flags, notFwsetup, notStop, notBoot]

/-- What a message does to the flags where it returns. -/
theorem receiveMessage_flags (run : receiveMessage fw frame s = .ok () t) :
    t.flags = (s.netPollContinue && !endsPolling frame,
      s.netStopAdvertising || stopsAdvertising frame) := by
  rw [receiveMessage, bind_of_ok (modify_run _ _), messageStart] at run
  obtain ⟨⟨⟩, handled, handle, rest⟩ := bind_eq_ok.mp run
  have kept := receiveTransfer_flags.ok handle
  have here : handled.frame = frame := (receiveTransfer_ok handle rfl).1
  rw [bind_of_ok (frameLE_run _ _ _), here] at rest
  have flags := dispatch_flags rest
  have continues : handled.netPollContinue = s.netPollContinue := congrArg Prod.fst kept
  have stops : handled.netStopAdvertising = s.netStopAdvertising := congrArg Prod.snd kept
  rw [flags, endsPolling, stopsAdvertising, messageCmd]
  exact congrArg₂ (fun first second => (first && !_, second || _)) continues stops

/-- **What a message does to the receiver.** -/
theorem receiveMessage_step (run : receiveMessage fw frame s = .ok () t) :
    Receiver.Step s.receiver frame t.receiver where
  outcome := ⟨fw, receiveMessage_outcome run⟩
  pollContinue := congrArg Prod.fst (receiveMessage_flags run)
  stopAdvertising := congrArg Prod.snd (receiveMessage_flags run)
  volume := receiveMessage_volume run
  path := (receiveMessage_path run).imp_right And.right

end Flags

/-! ## Resets -/

section Resets

variable {fw : NetFirmware} {s t : NetState} {frame : Memory}

theorem netErr_avoids (succeeded : Bool) : Avoids Halt.reset (netErr succeeded) :=
  Avoids.ite (fun _ => Avoids.pure _) fun _ => Avoids.throw (by decide)

theorem netMalloc_avoids (size : Nat) : Avoids Halt.reset (netMalloc fw size) := by
  refine Avoids.bind (Avoids.get.bind fun _ => Avoids.pure _) fun answer => ?_
  cases answer with
  | none => exact Avoids.throw (by decide)
  | some block => exact Avoids.pure _

theorem Block.copy_avoids (block : Option Block) (start size : Nat) (source : Memory) :
    Avoids Halt.reset (Block.copy block start size source) := by
  refine Avoids.ite (fun _ => Avoids.pure _) fun _ => ?_
  cases block with
  | none => exact Avoids.throw (by decide)
  | some block => exact Avoids.ite (fun _ => Avoids.pure _) fun _ => Avoids.throw (by decide)

theorem Block.deref_avoids (block : Option Block) : Avoids Halt.reset (Block.deref block) := by
  cases block with
  | none => exact Avoids.throw (by decide)
  | some block => exact Avoids.pure _

theorem Returns.avoids {α : Type} {reason : Halt} {program : Net α} (returns : Returns program) :
    Avoids reason program := by
  intro state stopped run
  obtain ⟨value, final, returned⟩ := returns state
  rw [returned] at run
  cases run

theorem netbootCmdSend_avoids (cmd : Nat) (data : Option Memory) (dataLen : Nat) :
    Avoids Halt.reset (netbootCmdSend fw cmd data dataLen) := by
  have frees : ∀ msg, Avoids Halt.reset (netFree fw msg) :=
    fun msg => Avoids.get.bind fun _ => netErr_avoids _
  refine (netMalloc_avoids _).bind fun msg => Avoids.get.bind fun s => ?_
  refine Avoids.ite (fun _ => ?_) fun _ => ?_
  · exact (netUdp6Send_returns _ _ _ _ _).avoids.bind fun _ => frees msg
  · exact (netUdp6Send_returns _ _ _ _ _).avoids.bind fun _ => frees msg

theorem sendAck_avoids (ack : Ack) : Avoids Halt.reset (sendAck fw ack) :=
  (Avoids.modify _).bind fun _ => netbootCmdSend_avoids _ _ _

theorem frameLE_avoids (offset width : Nat) : Avoids Halt.reset (frameLE offset width) :=
  (Avoids.modify _).bind fun _ => Avoids.get.bind fun _ => Avoids.pure _

theorem frameBytes_avoids (offset size : Nat) : Avoids Halt.reset (frameBytes offset size) :=
  (Avoids.modify _).bind fun _ => Avoids.get.bind fun _ => Avoids.pure _

theorem openFile_avoids (info : Block) : Avoids Halt.reset (openFile fw info) := by
  have call : ∀ (answer : NetState → Bool) {rest : Net (List Nat)}, Avoids Halt.reset rest →
      Avoids Halt.reset (do netErr (answer (← get)); rest) :=
    fun _ _ avoids => Avoids.get.bind fun _ => (netErr_avoids _).bind fun _ => avoids
  refine Avoids.bind ?_ fun path => ?_
  · unfold filePath
    split
    · exact (Avoids.modify _).bind fun _ => Avoids.throw (by decide)
    · refine (Avoids.modify _).bind fun _ => (netMalloc_avoids _).bind fun _ => ?_
      split
      · exact Avoids.pure _
      · exact Avoids.throw (by decide)
  · exact call _ (call _ (call _ (call (fun s => fw.openFile s path) (Avoids.pure path))))

/-- The handling of a fragment never resets the machine. -/
theorem receiveTransfer_avoids (data : Nat) : Avoids Halt.reset (receiveTransfer fw data) := by
  have takes : Avoids Halt.reset (takeFragment fw data) := by
    refine Avoids.get.bind fun _ => (frameLE_avoids _ _).bind fun _ => ?_
    refine (frameLE_avoids _ _).bind fun _ => Avoids.ite (fun _ => sendAck_avoids _) fun _ => ?_
    refine Avoids.bind (Avoids.get.bind fun _ => ?_) fun _ => sendAck_avoids _
    refine (frameBytes_avoids _ _).bind fun _ => (Avoids.modify _).bind fun _ => ?_
    exact (Block.copy_avoids _ _ _ _).bind fun _ => Avoids.modify _
  have finishes : ∀ info, Avoids Halt.reset (finishTransfer fw info) := by
    intro info
    have reads : Avoids Halt.reset (fileData info) :=
      Avoids.ite (fun _ => Avoids.pure _) fun _ =>
        Avoids.get.bind fun _ => (Block.deref_avoids _).bind fun _ => Avoids.pure _
    have writes : ∀ path contents, Avoids Halt.reset (writeFile fw path contents) := fun _ _ =>
      Avoids.get.bind fun _ => (netErr_avoids _).bind fun _ => Avoids.modify _
    exact (openFile_avoids info).bind fun path => reads.bind fun contents =>
      (writes path contents).bind fun _ => Avoids.modify _
  refine Avoids.get.bind fun _ => Avoids.ite (fun _ => ?_) fun _ => Avoids.pure _
  refine (frameLE_avoids _ _).bind fun _ => Avoids.ite (fun _ => ?_) fun _ => Avoids.pure _
  refine Avoids.get.bind fun _ => (Block.deref_avoids _).bind fun info => takes.bind fun _ => ?_
  exact Avoids.get.bind fun _ => Avoids.ite (fun _ => finishes info) fun _ => Avoids.pure _

theorem receiveInit_avoids (data : Nat) : Avoids Halt.reset (receiveInit fw data) := by
  have informs : Avoids Halt.reset (receiveInfo fw data) := by
    refine (frameLE_avoids _ _).bind fun _ => (Avoids.modify _).bind fun _ => ?_
    refine Avoids.bind (Avoids.get.bind fun _ => Avoids.pure _) fun _ => Avoids.get.bind fun _ => ?_
    exact (frameBytes_avoids _ _).bind fun _ => Block.copy_avoids _ _ _ _
  refine informs.bind fun fileInfo => Avoids.bind ?_ fun _ => sendAck_avoids _
  refine (Avoids.modify _).bind fun _ => (Block.deref_avoids _).bind fun _ => ?_
  exact Avoids.bind (Avoids.get.bind fun _ => Avoids.pure _) fun _ =>
    Avoids.get.bind fun _ => Avoids.modify _

/-- **The machine is reset only on command.** -/
theorem receiveMessage_reset (run : receiveMessage fw frame s = .error .reset t) :
    mayReset frame = true := by
  rw [receiveMessage, bind_of_ok (modify_run _ _), messageStart] at run
  rcases bind_eq_error.mp run with stopped | ⟨⟨⟩, handled, handle, rest⟩
  · exact absurd stopped (receiveTransfer_avoids 62 _ _)
  have here : handled.frame = frame := (receiveTransfer_ok handle rfl).1
  rw [bind_of_ok (frameLE_run _ _ _), here] at rest
  by_contra other
  simp only [mayReset, Bool.or_eq_true, beq_iff_eq, not_or] at other
  obtain ⟨⟨notFwsetup, notShutdown⟩, notReboot⟩ := other
  refine (?_ : Avoids Halt.reset (dispatch fw 62 (messageCmd frame))) _ _ rest
  refine Avoids.ite (fun is => absurd is notFwsetup) fun _ => ?_
  refine Avoids.ite (fun _ => Avoids.modify _) fun _ => ?_
  refine Avoids.ite (fun is => absurd is notShutdown) fun _ => ?_
  refine Avoids.ite (fun is => absurd is notReboot) fun _ => ?_
  refine Avoids.ite (fun _ => receiveInit_avoids 62) fun _ => ?_
  exact Avoids.ite (fun _ => Avoids.modify _) fun _ => Avoids.pure _

end Resets

/-! ## Frames -/

section Frames

variable {fw : NetFirmware} {s : NetState} {len : Nat}

instance (s : NetState) (frame : Memory) (len : Nat) : Decidable (Accepts s frame len) :=
  inferInstanceAs (Decidable (_ ∧ _ ∧ _ ∧ _ ∧ _))

instance (frame : Memory) : Decidable (IsNetboot frame) := inferInstanceAs (Decidable (_ ∧ _))

/-- The netboot message of a frame, if the frame carries one for this node. -/
def NetState.message? (s : NetState) (frame : Memory) (len : Nat) : Option Memory :=
  if Accepts s frame len ∧ IsNetboot frame then some frame else none

/-- Frames for one node are frames for another with the same addresses. -/
theorem accepts_congr {t : NetState} (same : t.station = s.station) (frame : Memory) (len : Nat) :
    Accepts t frame len ↔ Accepts s frame len := by
  have address : t.ip6LlAddr = s.ip6LlAddr := congrArg (·.2.1) same
  have group : t.ip6SnmAddr = s.ip6SnmAddr := congrArg (·.2.2) same
  rw [Accepts, Accepts, address, group]

theorem NetState.message?_congr {t : NetState} (same : t.station = s.station) (frame : Memory)
    (len : Nat) : t.message? frame len = s.message? frame len :=
  if_congr (and_congr_left' (accepts_congr same frame len)) rfl rfl

/-- A frame that is not accepted is only looked at. -/
theorem netEthReceive_rejected (rejected : ¬ Accepts s s.frame len) :
    ∃ answer noted, netEthReceive fw len s = .ok answer { s with frameReads := noted } := by
  rw [netEthReceive]
  split
  · exact ⟨_, _, rfl⟩
  rename_i long
  rw [bind_of_ok (frameLE_run _ _ _)]
  split
  · exact ⟨_, _, rfl⟩
  rename_i protocol
  rw [bind_of_ok (frameLE_run _ _ _)]
  split
  · exact ⟨_, _, rfl⟩
  rename_i version
  rw [bind_of_ok (frameLE_run _ _ _)]
  split
  · exact ⟨_, _, rfl⟩
  rename_i inside
  rw [bind_of_ok (frameBytes_run _ _ _), bind_of_ok (get_run _)]
  split
  · exact ⟨_, _, rfl⟩
  · rename_i mine
    exact absurd ⟨Nat.not_lt.mp long, not_not.mp protocol, not_not.mp version, Nat.not_lt.mp inside,
      not_not.mp fun foreign => mine (foreign_iff.mpr foreign)⟩ rejected

/-- What ICMPv6 leaves alone: the receiver and the addresses of the node. -/
def NetState.beyondIcmp (s : NetState) : Receiver × (Memory × Memory × Memory) :=
  (s.receiver, s.station)

theorem netIcmp6Send_beyond {data : Net Memory} (reads : Keeps NetState.beyondIcmp data)
    (length : Nat) (daddr : Memory) :
    Keeps NetState.beyondIcmp (netIcmp6Send fw data length daddr) := by
  have coarser : ∀ {α : Type} {program : Net α}, Keeps NetState.core program →
      Keeps NetState.beyondIcmp program := fun keeps => keeps.coarser fun _ _ same => by
    have parts := congrArg NetState.beyondIcmp same
    exact parts
  refine (coarser (netBufpoolGet_keeps _)).bind fun answer => ?_
  cases answer with
  | none => exact Keeps.pure _
  | some p =>
      refine Keeps.ite (fun _ => coarser (netBufpoolReturn_keeps _)) fun _ => ?_
      refine (coarser (netIp6PacketSetup_keeps _ _ _ _)).bind fun found => ?_
      refine Keeps.ite (fun _ => ?_) fun _ => coarser (netBufpoolReturn_keeps _)
      refine reads.bind fun _ => Keeps.bind (Keeps.modify fun _ => rfl) fun _ => ?_
      exact coarser (netEthSend_keeps _ _)

theorem netIcmp6Receive_beyond (ip data len : Nat) :
    Keeps NetState.beyondIcmp (netIcmp6Receive fw ip data len) := by
  have numbers : ∀ offset width, Keeps NetState.beyondIcmp (frameLE offset width) :=
    frameLE_keeps fun _ _ => rfl
  have bytes : ∀ offset size, Keeps NetState.beyondIcmp (frameBytes offset size) :=
    frameBytes_keeps fun _ _ => rfl
  refine (numbers _ _).bind fun type => Keeps.ite (fun _ => ?_) fun _ => Keeps.ite (fun _ => ?_) ?_
  · refine Keeps.bind (Keeps.modify fun _ => rfl) fun _ => (bytes _ _).bind fun src => ?_
    exact netIcmp6Send_beyond (bytes _ _) _ _
  · refine Keeps.ite (fun _ => (numbers _ _).bind fun _ => ?_) fun _ => Keeps.pure _
    refine Keeps.ite (fun _ => (numbers _ _).bind fun _ => ?_) fun _ => Keeps.pure _
    refine Keeps.ite (fun _ => (bytes _ _).bind fun _ => Keeps.get.bind fun _ => ?_) fun _ =>
      Keeps.pure _
    refine Keeps.ite (fun _ => Keeps.get.bind fun _ => (bytes _ _).bind fun _ => ?_) fun _ =>
      Keeps.pure _
    exact netIcmp6Send_beyond (Keeps.pure _) _ _
  · exact fun _ => Keeps.pure _

theorem netBufpoolGet_returns (size : Nat) : Returns (netBufpoolGet size) := by
  intro s
  rw [netBufpoolGet, bind_of_ok (get_run _)]
  split
  · exact ⟨_, _, rfl⟩
  · split <;> exact ⟨_, _, rfl⟩

theorem netIcmp6Send_returns {data : Net Memory} (reads : Returns data) (length : Nat)
    (daddr : Memory) : Returns (netIcmp6Send fw data length daddr) := by
  refine (netBufpoolGet_returns _).bind fun answer => ?_
  cases answer with
  | none => exact Returns.pure _
  | some p =>
      refine Returns.ite (fun _ => Returns.modify _) fun _ => ?_
      refine (netIp6PacketSetup_returns _ _ _ _).bind fun found => ?_
      refine Returns.ite (fun _ => ?_) fun _ => Returns.modify _
      exact reads.bind fun _ => (Returns.modify _).bind fun _ s => ⟨_, _, netEthSend_run fw _ _ s⟩

theorem netIcmp6Receive_returns (ip data len : Nat) : Returns (netIcmp6Receive fw ip data len) := by
  have numbers : ∀ offset width, Returns (frameLE offset width) := fun _ _ s => ⟨_, _, rfl⟩
  have bytes : ∀ offset size, Returns (frameBytes offset size) := fun _ _ s => ⟨_, _, rfl⟩
  refine (numbers _ _).bind fun type => Returns.ite (fun _ => ?_) fun _ => Returns.ite (fun _ => ?_) ?_
  · exact (Returns.modify _).bind fun _ => (bytes _ _).bind fun src =>
      netIcmp6Send_returns (bytes _ _) _ _
  · refine Returns.ite (fun _ => (numbers _ _).bind fun _ => ?_) fun _ => Returns.pure _
    refine Returns.ite (fun _ => (numbers _ _).bind fun _ => ?_) fun _ => Returns.pure _
    refine Returns.ite (fun _ => (bytes _ _).bind fun _ => Returns.get.bind fun _ => ?_) fun _ =>
      Returns.pure _
    refine Returns.ite (fun _ => Returns.get.bind fun _ => (bytes _ _).bind fun _ => ?_) fun _ =>
      Returns.pure _
    exact netIcmp6Send_returns (Returns.pure _) _ _
  · exact fun _ => Returns.pure _

/-- A packet that carries no netboot message is handled to its end. -/
theorem receiveProtocol_other {u : NetState} (other : ¬ IsNetboot u.frame) (n : Nat) :
    ∃ v, receiveProtocol fw (u.frame.loadLE 20 1) n u = .ok () v ∧ v.beyondIcmp = u.beyondIcmp := by
  rw [receiveProtocol]
  by_cases udp : u.frame.loadLE 20 1 = 17
  · refine ⟨u.withRead 56 2, ?_, rfl⟩
    rw [if_pos udp, netUdp6Receive, bind_of_ok (frameLE_run _ _ _),
      if_neg fun port : htons (u.frame.loadLE (54 + 2) 2) = 57777 => other ⟨udp, port⟩]
    rfl
  · rw [if_neg udp]
    by_cases icmp : u.frame.loadLE 20 1 = 58
    · rw [if_pos icmp]
      obtain ⟨⟨⟩, v, run⟩ := @netIcmp6Receive_returns fw 14 54 n u
      exact ⟨v, run, (netIcmp6Receive_beyond _ _ _).ok run⟩
    · rw [if_neg icmp]
      exact ⟨u, rfl, rfl⟩

/-- **A frame without a netboot message for this node** is handled to its end. It leaves the
receiver and the addresses of the node as they were. -/
theorem netEthReceive_other (nothing : s.message? s.frame len = none) :
    ∃ answer t, netEthReceive fw len s = .ok answer t ∧ t.beyondIcmp = s.beyondIcmp := by
  by_cases accepts : Accepts s s.frame len
  · have other : ¬ IsNetboot s.frame := fun netboot => by
      rw [NetState.message?, if_pos ⟨accepts, netboot⟩] at nothing
      cases nothing
    obtain ⟨noted, received⟩ := @netEthReceive_accepted fw s len accepts
    obtain ⟨t, run, same⟩ :=
      @receiveProtocol_other fw (s.heard noted) other (packetLength s.frame)
    exact ⟨true, t, received.trans (bind_of_ok run), same⟩
  · obtain ⟨answer, noted, run⟩ := @netEthReceive_rejected fw s len accepts
    exact ⟨answer, _, run, rfl⟩

/-- **A frame with a netboot message for this node** is handled as the message, with the sender of
the frame remembered. -/
theorem netEthReceive_netboot {message : Memory} (carries : s.message? s.frame len = some message) :
    ∃ noted, netEthReceive fw len s =
      (do receiveMessage fw message; return true) (s.heard noted) := by
  rw [NetState.message?] at carries
  split at carries
  · rename_i both
    obtain ⟨accepts, netboot⟩ := both
    cases carries
    obtain ⟨noted, received⟩ := @netEthReceive_accepted fw s len accepts
    refine ⟨⟨56, 2⟩ :: noted, ?_⟩
    rw [received, receiveProtocol, if_pos netboot.1, netUdp6Receive]
    refine bind_congr_run ?_ _
    rw [bind_of_ok (frameLE_run _ _ _),
      if_pos (show htons ((s.heard noted).frame.loadLE (54 + 2) 2) = 57777 from netboot.2)]
    rfl
  · cases carries

/-- No message changes the addresses of the node. -/
theorem netbootCmdReceive_station (data : Nat) :
    Keeps NetState.station (netbootCmdReceive fw data) := by
  intro s
  have sends : ∀ ack, Preserves (fun u : NetState => u.outside.station = s.station)
      (fun u => u.outside.station = s.station) (sendAck fw ack) := by
    intro ack
    have keeps : Keeps (fun u : NetState => u.outside.station = s.station) (sendAck fw ack) :=
      sendAck_keeps (fun _ => rfl) (fun _ _ => rfl) ack
    exact @Preserves.of_keeps _ _ _ _ _ id id _ keeps fun _ holds => holds
  have preserved := @netbootCmdReceive_preserves fw data (fun u => u.station = s.station)
    (fun u => u.station = s.station) (fun _ same => same) sends
    (@writeFile_preserves fw (fun u => u.station = s.station) (fun u => u.station = s.station)
      (fun _ same => same) fun _ _ _ same => same) s rfl
  cases run : netbootCmdReceive fw data s with
  | ok value t => exact preserved.1 value t run
  | error reason t => exact preserved.2 reason t run

/-- **What a frame does** where it is handled to its end: its message acts on the receiver, if it
carries one, and the addresses of the node stay. -/
theorem netEthReceive_steps {t : NetState} {answer : Bool}
    (run : netEthReceive fw len s = .ok answer t) :
    Run Receiver.Step s.receiver (s.message? s.frame len).toList t.receiver ∧
      t.station = s.station := by
  cases carries : s.message? s.frame len with
  | none =>
      obtain ⟨other, u, again, same⟩ := @netEthReceive_other fw s len carries
      rw [run] at again
      cases again
      have receiver : t.receiver = s.receiver := congrArg Prod.fst same
      rw [receiver]
      exact ⟨.nil _, congrArg Prod.snd same⟩
  | some message =>
      obtain ⟨noted, handled⟩ := @netEthReceive_netboot fw s len message carries
      rw [run] at handled
      obtain ⟨⟨⟩, u, received, done⟩ := bind_eq_ok.mp handled.symm
      cases done
      have kept := (Keeps.bind (Keeps.modify fun _ => rfl) fun _ =>
        netbootCmdReceive_station messageStart : Keeps NetState.station
          (receiveMessage fw message)).ok received
      have step : Receiver.Step s.receiver message t.receiver :=
        receiveMessage_step (s := s.heard noted) received
      exact ⟨.single step, kept⟩

end Frames

end VineyardLoader
