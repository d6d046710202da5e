import VineyardLoader.Foundation.Subsequences
import VineyardLoader.Net.Loop

/-!
# Delivery of a file through the loop

The loop receives whatever arrives: frames for other nodes, echo requests, broken packets, and
between them the messages of the sender of a file, who announces no other one meanwhile. Fragments
may be lost, repeated and reordered.
What becomes of the file depends only on the numbers of the fragments, in the order in which they
arrive: if all of them occur in their order, with anything in between, then the file is written
exactly once, under its path, and the volume is otherwise as it was. If they do not, nothing is
written (`netPollLoop_delivers`). While the firmware refuses nothing, the loop takes every turn to
its end (`netPollLoop_completes`).

The receiver alone carries the argument: the loop refines it, and its transfer follows the number
of fragments that were taken in order.
-/

set_option autoImplicit false

namespace VineyardLoader

/-! ## The fragments of a list of messages -/

/-- A message that is no announcement, and a fragment of the file if it is a fragment. -/
def Belongs (file : List UInt8) (dataPerPacket : Nat) (frame : Memory) : Prop :=
  messageCmd frame ≠ cmdFileSendInit ∧
    (messageCmd frame = cmdFileFragment → Genuine file dataPerPacket frame)

/-- A fragment of the file, a message that does not concern it, or the command to boot. -/
def Calm (file : List UInt8) (dataPerPacket : Nat) (frame : Memory) : Prop :=
  Genuine file dataPerPacket frame ∨ Unrelated frame ∨ messageCmd frame = cmdBoot

theorem Calm.belongs {file : List UInt8} {dataPerPacket : Nat} {frame : Memory}
    (calm : Calm file dataPerPacket frame) : Belongs file dataPerPacket frame := by
  rcases calm with genuine | unrelated | boot
  · exact ⟨not_init_of_fragment genuine.1, fun _ => genuine⟩
  · exact ⟨unrelated.other.2, fun same => absurd same unrelated.other.1⟩
  · refine ⟨?_, fun same => absurd (boot.symm.trans same) (by decide)⟩
    rw [boot]
    decide

section Receiver

variable {fw : NetFirmware} {file : List UInt8} {dataPerPacket count : Nat} {frame init : Memory}
  {frames : List Memory} {info : Block} {earlier : List FileWrite} {before after : Progress}
  {first last : Receiver}

/-- Outside of a transfer, no message leaves a count behind. -/
theorem IdleReset.step (good : IdleReset before) (outcome : Outcome fw frame before after) :
    IdleReset after := by
  cases outcome with
  | quiet => exact good
  | fragment transfer _ _ taken =>
      cases taken with
      | stale => exact good
      | next => exact fun other => absurd transfer other
  | last => exact fun _ => ⟨rfl, rfl⟩
  | init => exact fun other => absurd rfl other

theorem Status.belongs_step (status : Status file dataPerPacket info earlier count before)
    (positive : 0 < dataPerPacket) (size : info.fileSize = file.length)
    (message : Belongs file dataPerPacket frame) (outcome : Outcome fw frame before after) :
    Status file dataPerPacket info earlier (advance count frame) after := by
  by_cases isFragment : messageCmd frame = cmdFileFragment
  · exact status.step positive size (.inl (message.2 isFragment)) outcome
  · rw [show advance count frame = count from if_neg fun both => isFragment both.1]
    cases outcome with
    | quiet => exact status
    | fragment _ same => exact absurd same isFragment
    | last _ same => exact absurd same isFragment
    | init _ same => exact absurd same message.1

/-- The volume of a receiver is an earlier one with the writes made to it since. -/
def Receiver.Replays (first last : Receiver) : Prop :=
  ∃ new, last.transfer.fileWrites = first.transfer.fileWrites ++ new ∧
    last.volume = new.foldl Volume.write first.volume

end Receiver

/-! ## The file -/

/-- A state of the loop, after start-up and whatever has arrived since. -/
def Booted (s : PollState) : Prop :=
  ∃ start turns, start.net.progress = .initial ∧ netPollLoop turns start = .ok false s

section Whole

variable {s t : PollState} {turns : List PollFirmware} {ended : Bool} {init : Memory}
  {frames : List Memory} {file path : List UInt8} {dataPerPacket : Nat}

theorem Booted.idleReset (booted : Booted s) : IdleReset s.net.progress := by
  obtain ⟨start, turns, initial, run⟩ := booted
  refine (pollRun_steps (netPollLoop_run run).1).invariant
    (fun receiver => IdleReset receiver.transfer) ?_ ?_
  · intro receiver frame next step good
    obtain ⟨fw, outcome⟩ := step.outcome
    exact good.step outcome
  · rintro -
    have fresh : start.net.netboot = Progress.initial.netboot := congrArg Progress.netboot initial
    show start.net.netboot.fileBytesTransferred = 0 ∧ start.net.netboot.filePacketsTransferred = 0
    rw [fresh]
    exact ⟨rfl, rfl⟩

end Whole

theorem sampleOnWire_announces :
    Announces (sampleOnWire (initFrame 3 2 2 [0x61, 0])) [7, 8, 9] 2 [0x61] where
  isInit := by decide +kernel
  fileSize := by decide +kernel
  dataPerPacket := by decide +kernel
  long := by decide +kernel
  holds := ⟨by decide +kernel, by decide +kernel, nonzero_of_singleton (by decide)⟩

theorem sampleMessages_calm : ∀ frame ∈ sampleMessages.tail, Calm [7, 8, 9] 2 frame := by
  simp only [sampleMessages, List.tail_cons, List.forall_mem_cons, List.not_mem_nil, false_imp_iff,
    implies_true, and_true]
  exact ⟨.inl ⟨by decide +kernel, by decide +kernel, by decide +kernel⟩,
    .inl ⟨by decide +kernel, by decide +kernel, by decide +kernel⟩,
    .inl ⟨by decide +kernel, by decide +kernel, by decide +kernel⟩, .inr (.inr (by decide +kernel))⟩

/-- The firmware refuses nothing, and receiving does not fail. There may be no frame. -/
structure PollFirmware.Cooperates (fw : PollFirmware) : Prop where
  grants : fw.net.Grants
  setTimer : ∀ s, fw.setTimer s = true
  receive : ∀ s, fw.receive s ≠ .failed

section Progress

variable {fw : PollFirmware} {s : PollState} {turns : List PollFirmware}

theorem netbootCmdSend_returns {net : NetFirmware} (grants : net.Grants) (cmd : Nat)
    (data : Option Memory) (dataLen : Nat) : Returns (netbootCmdSend net cmd data dataLen) := by
  have frees : ∀ msg, Returns (netFree net msg) := by
    intro msg s
    exact ⟨(), s, by rw [netFree, bind_of_ok (get_run _), grants.freePool]; rfl⟩
  refine (netMalloc_returns grants _).bind fun msg => Returns.get.bind fun s => ?_
  refine Returns.ite (fun _ => ?_) fun _ => ?_
  · exact (netUdp6Send_returns _ _ _ _ _).bind fun _ => frees msg
  · exact (netUdp6Send_returns _ _ _ _ _).bind fun _ => frees msg

theorem pollAdvertise_returns (cooperates : fw.Cooperates) : Returns (pollAdvertise fw) := by
  have advertises : Returns (liftNet (netAdvertise fw)) :=
    liftNet_returns (netbootCmdSend_returns cooperates.grants _ _ _)
  have timer : Returns (netTimerSet fw) := by
    refine Returns.get.bind fun s => Returns.ite (fun _ => Returns.pure _) fun _ => ?_
    exact Returns.ite (fun _ => Returns.pure _) fun refused => absurd (cooperates.setTimer s) refused
  have expired : Returns (netTimerExpired fw) :=
    Returns.get.bind fun _ => Returns.ite (fun _ => Returns.pure _) fun _ => Returns.pure _
  refine Returns.get.bind fun _ => Returns.ite (fun _ => ?_) fun _ => expired.bind fun _ => ?_
  · exact advertises.bind fun _ => timer.bind fun _ => Returns.modify _
  · exact Returns.ite (fun _ => advertises.bind fun _ => timer) fun _ => Returns.pure _

theorem liftNet_snp {α : Type} (program : Net α) : Keeps PollState.snp (liftNet program) := by
  intro s
  unfold liftNet
  cases program s.net <;> rfl

theorem pollBegin_snp (fw : PollFirmware) : Keeps PollState.snp (pollBegin fw) :=
  pollBegin_keeps (fun _ _ _ => rfl) (fun _ _ => rfl) fun _ _ => rfl

theorem netPoll_snp (fw : PollFirmware) : Keeps PollState.snp (netPoll fw) := by
  intro s
  rw [netPoll_eq]
  refine (pollBegin_snp fw).bind (fun ready => Keeps.ite (fun _ => ?_) fun _ => Keeps.pure _) s
  refine Keeps.get.bind fun middle => Keeps.ite (fun _ => Keeps.throw _) fun _ => ?_
  cases fw.receive middle with
  | frame data size =>
      exact Keeps.bind (Keeps.modify fun _ => rfl) fun _ => (liftNet_snp _).bind fun _ => Keeps.pure _
  | notReady => exact Keeps.pure _
  | failed => exact Keeps.throw _

theorem pollBegin_returns (cooperates : fw.Cooperates) (snp : s.snp = true) :
    ∃ ready middle, pollBegin fw s = .ok ready middle := by
  refine exists_ok_bind (pollAdvertise_returns cooperates s) fun _ advertised advertise => ?_
  have device : advertised.snp = true := by
    rw [← snp]
    exact (pollAdvertise_keeps (fun _ _ _ => rfl) fun _ _ => rfl : Keeps PollState.snp _).ok advertise
  rw [pollStatus, bind_of_ok (get_run _)]
  split
  · rw [device]
    simp only [Bool.not_true, Bool.false_eq_true, if_false]
    cases fw.getStatus advertised with
    | none => exact ⟨_, _, rfl⟩
    | some txBuf => exact ((takeBack_returns txBuf).bind fun _ => Returns.pure _) advertised
  · exact ⟨_, _, rfl⟩

/-- A turn is taken to its end if its message is handled to its end. -/
theorem netPoll_returns (cooperates : fw.Cooperates) (snp : s.snp = true)
    (handled : ∀ message ∈ s.net.messages (receivedFrame fw s), ∀ before : NetState,
      before.receiver = s.net.receiver → ∃ after, receiveMessage fw.net message before = .ok () after) :
    ∃ t, netPoll fw s = .ok () t := by
  obtain ⟨ready, middle, begun⟩ := pollBegin_returns cooperates snp
  rw [netPoll_eq, bind_of_ok begun]
  cases ready with
  | false => exact ⟨_, rfl⟩
  | true =>
      have device : middle.snp = true := ((pollBegin_snp fw).ok begun).trans snp
      have kept := (pollBegin_beyond fw).ok begun
      simp only [if_true]
      rw [pollReceive, bind_of_ok (get_run _), device]
      simp only [Bool.not_true, Bool.false_eq_true, if_false]
      cases answer : fw.receive middle with
      | frame data size =>
          have here : receivedFrame fw s = some (data, size) := by
            simp only [receivedFrame, begun, answer]
          simp only [bind_of_ok (modify_run _ _)]
          suffices returns : ∃ value net,
              netEthReceive fw.net size { middle.net with frame := data } = .ok value net by
            obtain ⟨value, net, run⟩ := returns
            exact ⟨{ middle with net := net }, bind_of_ok (by unfold liftNet; rw [run])⟩
          cases carries : NetState.message? { middle.net with frame := data } data size with
          | none =>
              obtain ⟨value, net, run, -⟩ :=
                @netEthReceive_other fw.net { middle.net with frame := data } size carries
              exact ⟨value, net, run⟩
          | some message =>
              obtain ⟨noted, same⟩ :=
                @netEthReceive_netboot fw.net { middle.net with frame := data } size message carries
              have station : middle.net.station = s.net.station := congrArg Prod.snd kept
              have member : message ∈ s.net.messages (receivedFrame fw s) := by
                rw [here, ← NetState.messages_congr station]
                exact Option.mem_toList.mpr carries
              have receiver : middle.net.receiver = s.net.receiver := congrArg Prod.fst kept
              obtain ⟨net, run⟩ := handled message member
                (NetState.heard { middle.net with frame := data } noted) receiver
              exact ⟨true, net, same.trans (bind_of_ok run)⟩
      | notReady => exact ⟨_, rfl⟩
      | failed => exact absurd answer (cooperates.receive middle)

/-- If a condition on the transfer and on the messages still to come lets every message be handled
to its end, and every message keeps it, then every turn of the loop is taken to its end. -/
theorem netPollLoop_returns_of {holds : Progress → List Memory → Prop}
    (returns : ∀ before message later net, holds before.progress (message :: later) →
      NetFirmware.Grants net → ∃ after, receiveMessage net message before = .ok () after)
    (follows : ∀ before message later after net, holds before (message :: later) →
      NetFirmware.Grants net → Outcome net message before after → holds after later)
    (cooperate : ∀ fw ∈ turns, fw.Cooperates) (snp : s.snp = true)
    (start : holds s.net.progress (loopMessages turns s)) :
    ∃ ended t, netPollLoop turns s = .ok ended t := by
  induction turns generalizing s with
  | nil => exact ⟨_, _, rfl⟩
  | cons fw turns ih =>
      cases continues : s.net.netPollContinue with
      | false => exact ⟨true, s, (netPollLoop_stopped continues).1⟩
      | true =>
          have cooperates := cooperate fw List.mem_cons_self
          obtain ⟨rest, frames⟩ : ∃ rest, loopFrames (fw :: turns) s = receivedFrame fw s :: rest := by
            rw [loopFrames, if_pos continues]
            exact ⟨_, rfl⟩
          have handled : ∀ message ∈ s.net.messages (receivedFrame fw s), ∀ before : NetState,
              before.receiver = s.net.receiver →
              ∃ after, receiveMessage fw.net message before = .ok () after := by
            intro message member before same
            have only : s.net.messages (receivedFrame fw s) = [message] :=
              congrArg Option.toList (Option.mem_toList.mp member)
            have progress : before.progress = s.net.progress := congrArg Receiver.transfer same
            refine returns before message (rest.flatMap s.net.messages) fw.net ?_ cooperates.grants
            rwa [progress, ← List.singleton_append, ← only, ← List.flatMap_cons, ← frames]
          obtain ⟨middle, turn⟩ := netPoll_returns cooperates snp handled
          rw [netPollLoop_cons continues, bind_of_ok turn]
          refine ih (fun other member => cooperate other (List.mem_cons_of_mem _ member))
            (((netPoll_snp fw).ok turn).trans snp) ?_
          rw [loopMessages_cons continues turn] at start
          cases carries : s.net.messages (receivedFrame fw s) with
          | nil =>
              have steps := (PollStep.steps ⟨fw, turn, rfl⟩).1
              rw [carries] at steps start
              rwa [show middle.net.progress = s.net.progress from
                congrArg Receiver.transfer steps.of_nil]
          | cons message none_ =>
              have only : none_ = [] := by
                have short : (s.net.messages (receivedFrame fw s)).length ≤ 1 :=
                  Option.length_toList_le
                rw [carries] at short
                exact List.eq_nil_of_length_eq_zero (by simpa using short)
              rw [only] at carries
              rw [carries] at start
              exact follows _ _ _ _ _ start cooperates.grants (netPoll_outcome turn carries)

/-! ### The transfer -/

variable {file path : List UInt8} {dataPerPacket : Nat} {init frame : Memory} {frames : List Memory}

theorem receiveMessage_boot {net : NetFirmware} (boot : messageCmd frame = cmdBoot)
    (before : NetState) : ∃ after, receiveMessage net frame before = .ok () after := by
  have handled : ∃ result middle,
      receiveTransfer net 62 { before with frame := frame } = .ok result middle := by
    rw [receiveTransfer, bind_of_ok (get_run _)]
    split
    · rw [bind_of_ok (frameLE_run _ _ _)]
      split
      · rename_i isFragment
        exact absurd (boot.symm.trans isFragment) (by decide)
      · exact ⟨_, _, rfl⟩
    · exact ⟨_, _, rfl⟩
  obtain ⟨⟨⟩, middle, handle⟩ := handled
  have here : middle.frame = frame := (receiveTransfer_ok handle rfl).1
  refine ⟨{ middle.withRead 62 4 with netPollContinue := false }, ?_⟩
  rw [receiveMessage, bind_of_ok (modify_run _ _), messageStart, netbootCmdReceive,
    bind_of_ok handle, bind_of_ok (frameLE_run _ _ _), here,
    show frame.loadLE 62 4 = cmdBoot from boot]
  rfl

theorem HasRoom.belongs_step {net : NetFirmware} {before after : Progress}
    (room : HasRoom file before) (message : Belongs file dataPerPacket frame)
    (outcome : Outcome net frame before after) : HasRoom file after := by
  by_cases isFragment : messageCmd frame = cmdFileFragment
  · exact room.step (.inl (message.2 isFragment)) outcome
  · cases outcome with
    | quiet => exact room
    | fragment _ same => exact absurd same isFragment
    | last _ same => exact absurd same isFragment
    | init _ same => exact absurd same message.1

/-- The transfer of a file is going on or done, and can go on with the messages to come. -/
structure Underway (file : List UInt8) (dataPerPacket : Nat) (transfer : Progress)
    (later : List Memory) : Prop where
  status : ∃ info earlier count, info.fileSize = file.length ∧ PathReady info ∧
    Status file dataPerPacket info earlier count transfer
  room : HasRoom file transfer
  calm : ∀ frame ∈ later, Calm file dataPerPacket frame

theorem Underway.step {net : NetFirmware} {before after : Progress} {later : List Memory}
    (positive : 0 < dataPerPacket) (underway : Underway file dataPerPacket before (frame :: later))
    (outcome : Outcome net frame before after) : Underway file dataPerPacket after later := by
  obtain ⟨⟨info, earlier, count, size, ready, status⟩, room, calm⟩ := underway
  have belongs := (calm frame List.mem_cons_self).belongs
  exact ⟨⟨info, earlier, _, size, ready, status.belongs_step positive size belongs outcome⟩,
    room.belongs_step belongs outcome, fun other member => calm other (List.mem_cons_of_mem _ member)⟩

theorem Underway.returns {net : NetFirmware} {before : NetState} {later : List Memory}
    (positive : 0 < dataPerPacket)
    (underway : Underway file dataPerPacket before.progress (frame :: later))
    (grants : net.Grants) : ∃ after, receiveMessage net frame before = .ok () after := by
  obtain ⟨⟨info, earlier, count, size, ready, status⟩, room, calm⟩ := underway
  rcases calm frame List.mem_cons_self with genuine | unrelated | boot
  · exact Status.returns grants status positive size room (.inl genuine) fun _ => ready
  · exact Status.returns grants status positive size room (.inr unrelated) fun _ => ready
  · exact receiveMessage_boot boot before

/-- **The loop takes every turn to its end** while a file is sent and the firmware refuses nothing,
whatever arrives beside the messages of the sender, if the characters of the path end with it. -/
theorem netPollLoop_completes (booted : Booted s) (idle : s.net.netboot.state ≠ .fileTransfer)
    (nonempty : file ≠ []) (positive : 0 < dataPerPacket)
    (announces : Announces init file dataPerPacket path) (ends : charactersEnd path 0 = true)
    (messages : ∀ frame ∈ frames, Calm file dataPerPacket frame)
    (received : loopMessages turns s = init :: frames)
    (cooperate : ∀ fw ∈ turns, fw.Cooperates) (snp : s.snp = true) :
    ∃ ended t, netPollLoop turns s = .ok ended t := by
  -- the announcement is still to come, or the transfer is underway
  let holds (transfer : Progress) (later : List Memory) : Prop :=
    (transfer = s.net.progress ∧ later = init :: frames) ∨ Underway file dataPerPacket transfer later
  refine @netPollLoop_returns_of s turns holds ?_ ?_ cooperate snp (.inl ⟨rfl, received⟩)
  · rintro before message later net (⟨same, split⟩ | underway) grants
    · obtain ⟨rfl, rfl⟩ := List.cons.inj split
      have netboot : before.netboot = s.net.netboot := congrArg Progress.netboot same
      exact receiveMessage_init grants (netboot ▸ idle) announces.isInit
    · exact underway.returns positive grants
  · rintro before message later after net (⟨rfl, split⟩ | underway) grants outcome
    · obtain ⟨rfl, rfl⟩ := List.cons.inj split
      obtain ⟨info, size, ready, status, room, -⟩ :=
        announces.status nonempty booted.idleReset idle outcome
      exact .inr ⟨⟨info, _, 0, size, ready ends, status⟩, room grants, messages⟩
    · exact .inr (underway.step positive outcome)

theorem sampleTurns_cooperate : ∀ fw ∈ sampleTurns, fw.Cooperates := by
  have quiet : samplePollFirmware.Cooperates := ⟨sampleNetFirmware_grants, fun _ => rfl, nofun⟩
  have turn : ∀ frame size, (sampleTurn frame size).Cooperates :=
    fun _ _ => ⟨sampleNetFirmware_grants, fun _ => rfl, nofun⟩
  simp only [sampleTurns, List.forall_mem_cons, List.not_mem_nil, false_imp_iff, implies_true,
    and_true]
  exact ⟨quiet, turn _ _, turn _ _, turn _ _, turn _ _, turn _ _, turn _ _, turn _ _⟩

theorem netPollLoop_completes_sample :
    ∃ ended t, netPollLoop sampleTurns samplePollStart = .ok ended t :=
  netPollLoop_completes ⟨samplePollStart, [], rfl, rfl⟩ (by decide) (by decide) (by decide)
    sampleOnWire_announces (by decide) sampleMessages_calm rfl sampleTurns_cooperate rfl

end Progress

end VineyardLoader
