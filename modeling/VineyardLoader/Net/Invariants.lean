import VineyardLoader.Net.Steps

/-!
# Invariants of the handling of a message

A message reaches the outside in two places: an acknowledgement is sent, and a completed file is
written. All the rest of `netboot_cmd_receive` only moves the transfer on. So an invariant of what
is outside holds after every message if it survives these two (`netbootCmdReceive_preserves`).
-/

set_option autoImplicit false

namespace VineyardLoader

/-- The state without the transfer, the flags of the loop, and the notes about them. What remains
is the frame, the addresses, the transmit buffers, the volume, and what was sent and written. -/
def NetState.outside (s : NetState) : NetState :=
  { s with
    netboot := ⟨.preinit, none, none, 0, 0⟩
    netPollContinue := true
    netStopAdvertising := false
    frameReads := []
    pathReads := []
    infoLengths := []
    copies := []
    accepted := [] }

section Message

variable {fw : NetFirmware} {data : Nat}

theorem frameLE_outside (offset width : Nat) : Keeps NetState.outside (frameLE offset width) :=
  frameLE_keeps (fun _ _ => rfl) offset width

theorem frameBytes_outside (offset size : Nat) :
    Keeps NetState.outside (frameBytes offset size) :=
  frameBytes_keeps (fun _ _ => rfl) offset size

theorem acceptFragment_outside (fragmentId dataLen : Nat) :
    Keeps NetState.outside (acceptFragment data fragmentId dataLen) := by
  refine Keeps.get.bind fun _ => (frameBytes_outside _ _).bind fun _ => ?_
  refine Keeps.bind (Keeps.modify fun _ => rfl) fun _ => ?_
  exact (Block.copy_keeps _ _ _ _).bind fun _ => Keeps.modify fun _ => rfl

theorem receiveInfo_outside : Keeps NetState.outside (receiveInfo fw data) := by
  refine (frameLE_outside _ _).bind fun _ => Keeps.bind (Keeps.modify fun _ => rfl) fun _ => ?_
  refine (netAllocatePool_keeps _).bind fun _ => Keeps.get.bind fun _ => ?_
  exact (frameBytes_outside _ _).bind fun _ => Block.copy_keeps _ _ _ _

theorem startTransfer_outside (fileInfo : Option Block) :
    Keeps NetState.outside (startTransfer fw fileInfo) := by
  refine Keeps.bind (Keeps.modify fun _ => rfl) fun _ => (Block.deref_keeps _).bind fun _ => ?_
  refine (netAllocatePool_keeps _).bind fun _ => Keeps.get.bind fun _ => ?_
  exact Keeps.modify fun _ => rfl

variable {invariant left : NetState → Prop} (weaker : ∀ s, invariant s → left s)
  (sends : ∀ ack,
    Preserves (fun s => invariant s.outside) (fun s => left s.outside) (sendAck fw ack))
  (writes : ∀ path contents,
    Preserves (fun s => invariant s.outside) (fun s => left s.outside) (writeFile fw path contents))

include weaker

/-- What only moves the transfer on keeps the invariant. -/
theorem preserves_of_outside {α : Type} {program : Net α} (keeps : Keeps NetState.outside program) :
    Preserves (fun s => invariant s.outside) (fun s => left s.outside) program :=
  Preserves.of_keeps keeps fun s => weaker s.outside

/-- A completed file keeps an invariant that is not about the volume. -/
theorem writeFile_preserves
    (stays : ∀ s volume writes, invariant s →
      invariant { s with volume := volume, fileWrites := writes })
    (path : List Nat) (contents : List UInt8) :
    Preserves (fun s => invariant s.outside) (fun s => left s.outside)
      (writeFile fw path contents) := by
  refine Preserves.get.bind fun _ => (preserves_of_outside weaker (netErr_keeps _)).bind fun _ => ?_
  exact Preserves.modify fun s holds => stays s.outside _ _ holds

include writes in
theorem finishTransfer_preserves (info : Block) :
    Preserves (fun s => invariant s.outside) (fun s => left s.outside) (finishTransfer fw info) := by
  refine (preserves_of_outside weaker (openFile_keeps (fun _ _ => rfl) info)).bind fun path => ?_
  refine (preserves_of_outside weaker (fileData_keeps info)).bind fun contents => ?_
  refine (writes path contents).bind fun _ => preserves_of_outside weaker ?_
  exact Keeps.modify fun _ => rfl

include sends in
theorem takeFragment_preserves :
    Preserves (fun s => invariant s.outside) (fun s => left s.outside) (takeFragment fw data) := by
  refine Preserves.get.bind fun s => ?_
  refine (preserves_of_outside weaker (frameLE_outside _ _)).bind fun dataLen => ?_
  refine (preserves_of_outside weaker (frameLE_outside _ _)).bind fun fragmentId => ?_
  refine Preserves.ite (fun _ => sends _) fun _ => ?_
  exact (preserves_of_outside weaker (acceptFragment_outside _ _)).bind fun _ => sends _

include sends writes in
theorem receiveFragment_preserves :
    Preserves (fun s => invariant s.outside) (fun s => left s.outside)
      (receiveFragment fw data) := by
  refine Preserves.get.bind fun s => ?_
  refine (preserves_of_outside weaker (Block.deref_keeps _)).bind fun info => ?_
  refine (takeFragment_preserves weaker sends).bind fun _ => Preserves.get.bind fun t => ?_
  exact Preserves.ite (fun _ => finishTransfer_preserves weaker writes info) fun _ =>
    Preserves.pure _

include sends in
theorem receiveInit_preserves :
    Preserves (fun s => invariant s.outside) (fun s => left s.outside) (receiveInit fw data) := by
  refine (preserves_of_outside weaker receiveInfo_outside).bind fun fileInfo => ?_
  exact (preserves_of_outside weaker (startTransfer_outside fileInfo)).bind fun _ => sends _

include sends in
theorem dispatch_preserves (cmd : Nat) :
    Preserves (fun s => invariant s.outside) (fun s => left s.outside) (dispatch fw data cmd) := by
  by_cases init : cmd = cmdFileSendInit
  · subst init
    exact receiveInit_preserves weaker sends
  · exact preserves_of_outside weaker (dispatch_keeps (fun _ _ _ => rfl) init)

include sends writes in
/-- **What survives an acknowledgement and a completed file survives every message.** -/
theorem netbootCmdReceive_preserves :
    Preserves (fun s => invariant s.outside) (fun s => left s.outside)
      (netbootCmdReceive fw data) := by
  refine Preserves.bind ?_ fun _ => ?_
  · refine Preserves.get.bind fun s => Preserves.ite (fun _ => ?_) fun _ => Preserves.pure _
    refine (preserves_of_outside weaker (frameLE_outside _ _)).bind fun cmd => ?_
    exact Preserves.ite (fun _ => receiveFragment_preserves weaker sends writes) fun _ =>
      Preserves.pure _
  · refine (preserves_of_outside weaker (frameLE_outside _ _)).bind fun cmd => ?_
    exact dispatch_preserves weaker sends cmd

end Message

end VineyardLoader
