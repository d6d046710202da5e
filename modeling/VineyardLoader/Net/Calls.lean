import VineyardLoader.Net.Safety

/-!
# Messages that are handled to their end

If every call of the firmware succeeds, the only ways to stop are a copy outside of the file
buffer, a path that cannot be converted, and the commands that reset the machine. A fragment and
a message that does not concern the transfer are then handled to their end
(`receiveMessage_returns`), and so is an announcement (`receiveInit_returns`).
-/

set_option autoImplicit false

namespace VineyardLoader

/-- The message of a frame is one that does not concern the transfer. -/
def Unrelated (frame : Memory) : Prop :=
  messageCmd frame = cmdAdvertise ∨ messageCmd frame = cmdStopAdvertising ∨
    messageCmd frame = cmdAck

/-- Every call of the firmware succeeds. Whether a frame is transmitted is left open. -/
structure NetFirmware.Grants (fw : NetFirmware) : Prop where
  allocatePool : ∀ s size, (fw.allocatePool s size).isSome
  freePool : ∀ s, fw.freePool s = true
  loadedImage : ∀ s, fw.loadedImage s = true
  fileSystem : ∀ s, fw.fileSystem s = true
  openVolume : ∀ s, fw.openVolume s = true
  openFile : ∀ s path, fw.openFile s path = true
  writeFile : ∀ s, fw.writeFile s = true

/-- The path of the file has an end and is converted in its room. -/
def PathReady (info : Block) : Prop :=
  ∃ length units, strlen info.path = some length ∧ uefiToUcs2 info.path (length + 1) = some units

section Returns

variable {fw : NetFirmware}

/-- A buffer that is there stays there. -/
theorem Taken.exists_buffer {frame : Memory} {before after : Progress} {buffer : Block}
    (taken : Taken frame before after) (hasBuffer : before.netboot.fileBuffer = some buffer) :
    ∃ later, after.netboot.fileBuffer = some later ∧ later.size = buffer.size := by
  cases taken with
  | stale => exact ⟨buffer, hasBuffer, rfl⟩
  | next _ copied => exact copied.exists_block hasBuffer

theorem Block.copy_returns {block : Option Block} {start size : Nat} {source : Memory}
    (allowed : size = 0 ∨ ∃ known, block = some known ∧ start + size ≤ known.size) :
    Returns (Block.copy block start size source) := by
  refine Returns.ite (fun _ => Returns.pure _) fun something => ?_
  obtain ⟨known, rfl, inside⟩ := allowed.resolve_left something
  simp only [if_pos inside]
  exact Returns.pure _

theorem netIp6PacketSetup_returns (p : Nat) (addr : Memory) (length type : Nat) :
    Returns (netIp6PacketSetup p addr length type) := by
  refine Returns.bind (Returns.get.bind fun _ => ?_) fun answer => ?_
  · exact Returns.ite (fun _ => Returns.pure _) fun _ =>
      Returns.ite (fun _ => Returns.pure _) fun _ => Returns.pure _
  · cases answer with
    | none => exact Returns.pure _
    | some mac => exact (Returns.modify _).bind fun _ => Returns.pure _

theorem netUdp6Send_returns (data : Memory) (len : Nat) (addr : Memory) (destPort sourcePort : Nat) :
    Returns (netUdp6Send fw data len addr destPort sourcePort) := by
  have pool : Returns (netBufpoolGet ethMtu) := by
    intro s
    rw [netBufpoolGet, bind_of_ok (get_run _)]
    split
    · exact ⟨_, _, rfl⟩
    · split <;> exact ⟨_, _, rfl⟩
  have eth : ∀ data len, Returns (netEthSend fw data len) := by
    intro data len s
    rw [netEthSend, bind_of_ok (get_run _), bind_of_ok (rfl : (set _ : Net Unit) s = .ok () _)]
    split <;> exact ⟨_, _, rfl⟩
  refine pool.bind fun answer => ?_
  cases answer with
  | none => exact Returns.pure _
  | some p =>
      refine (netIp6PacketSetup_returns _ _ _ _).bind fun found => Returns.ite (fun _ => ?_) fun _ => ?_
      · exact (Returns.modify _).bind fun _ => eth _ _
      · exact Returns.modify _

variable (grants : fw.Grants)

include grants

theorem netMalloc_returns (size : Nat) : Returns (netMalloc fw size) := by
  intro s
  obtain ⟨answer, known⟩ := Option.isSome_iff_exists.mp (grants.allocatePool s size)
  refine ⟨⟨answer.1, size, answer.2⟩, s, ?_⟩
  rw [netMalloc, bind_of_ok (netAllocatePool_run _ _), known]
  rfl

theorem sendAck_returns (ack : Ack) : Returns (sendAck fw ack) := by
  have free : ∀ block, Returns (netFree fw block) := by
    intro block s
    exact ⟨(), s, by rw [netFree, bind_of_ok (get_run _), grants.freePool]; rfl⟩
  refine (Returns.modify _).bind fun _ => (netMalloc_returns grants _).bind fun msg => ?_
  refine Returns.get.bind fun _ => Returns.ite (fun _ => ?_) fun _ => ?_
  · exact (netUdp6Send_returns _ _ _ _ _).bind fun _ => free msg
  · exact (netUdp6Send_returns _ _ _ _ _).bind fun _ => free msg

theorem openFile_returns {info : Block} (ready : PathReady info) : Returns (openFile fw info) := by
  obtain ⟨length, units, measured, converted⟩ := ready
  have call : ∀ {answer : NetState → Bool}, (∀ s, answer s = true) →
      ∀ {rest : Net (List Nat)}, Returns rest → Returns (do netErr (answer (← get)); rest) := by
    intro answer succeeds rest returns
    refine Returns.get.bind fun s => Returns.bind ?_ fun _ => returns
    rw [succeeds]
    exact Returns.pure ()
  refine Returns.bind ?_ fun path => ?_
  · unfold filePath
    rw [measured]
    refine (Returns.modify _).bind fun _ => (netMalloc_returns grants _).bind fun _ => ?_
    simp only [converted]
    exact Returns.pure _
  · exact call grants.loadedImage (call grants.fileSystem (call grants.openVolume
      (call (fun s => grants.openFile s path) (Returns.pure path))))

theorem netAllocatePool_granted {s t : NetState} {size : Nat} {answer : Option Block}
    (run : netAllocatePool fw size s = .ok answer t) :
    ∃ block, answer = some block ∧ block.size = size := by
  obtain ⟨granted, known⟩ := Option.isSome_iff_exists.mp (grants.allocatePool s size)
  rw [netAllocatePool_run, known, EStateM.Result.ok.injEq] at run
  exact ⟨_, run.1.symm, rfl⟩

theorem receiveInfo_granted {s t : NetState} {fileInfo : Option Block}
    (run : receiveInfo fw 62 s = .ok fileInfo t) : ∃ info, fileInfo = some info := by
  rw [receiveInfo, bind_of_ok (frameLE_run _ _ _), bind_of_ok (modify_run _ _)] at run
  obtain ⟨answer, middle, allocate, rest⟩ := bind_eq_ok.mp run
  obtain ⟨block, rfl, -⟩ := netAllocatePool_granted grants allocate
  rw [bind_of_ok (get_run _), bind_of_ok (frameBytes_run _ _ _)] at rest
  obtain ⟨info, known, -⟩ := (Block.copy_ok.mp rest).2.exists_block rfl
  exact ⟨info, known⟩

theorem receiveInfo_returns : Returns (receiveInfo fw 62) := by
  intro s
  rw [receiveInfo, bind_of_ok (frameLE_run _ _ _), bind_of_ok (modify_run _ _)]
  refine exists_ok_bind ⟨_, _, netAllocatePool_run _ _⟩ fun answer middle allocate => ?_
  obtain ⟨block, rfl, size⟩ := netAllocatePool_granted grants allocate
  rw [bind_of_ok (get_run _), bind_of_ok (frameBytes_run _ _ _)]
  exact Block.copy_returns (.inr ⟨block, rfl, by rw [Nat.zero_add, size]⟩) _

theorem receiveInit_returns : Returns (receiveInit fw 62) := by
  have start : ∀ info, Returns (startTransfer fw (some info)) := fun info =>
    (Returns.modify _).bind fun _ => (Returns.pure info).bind fun _ =>
      Returns.bind (Returns.get.bind fun _ => Returns.pure _) fun _ =>
        Returns.get.bind fun _ => Returns.modify _
  intro s
  apply exists_ok_bind (receiveInfo_returns grants s)
  intro fileInfo informed inform
  obtain ⟨info, rfl⟩ := receiveInfo_granted grants inform
  exact Returns.bind (start info) (fun _ => sendAck_returns grants _) informed

variable {s : NetState} {frame : Memory}

theorem finishTransfer_returns {info buffer : Block} (ready : PathReady info)
    (hasBuffer : s.netboot.fileBuffer = some buffer) :
    ∃ result t, finishTransfer fw info s = .ok result t := by
  apply exists_ok_bind (openFile_returns grants ready s)
  intro path opened opens
  have same : opened.netboot = s.netboot :=
    (openFile_keeps (fun _ _ => rfl) info : Keeps NetState.netboot _).ok opens
  refine exists_ok_bind ?_ fun data read _ => Returns.bind ?_ (fun _ => Returns.modify _) read
  · unfold fileData
    split
    · exact ⟨_, _, rfl⟩
    · rw [bind_of_ok (get_run _), same, hasBuffer]
      exact ⟨_, _, rfl⟩
  · refine Returns.get.bind fun s => Returns.bind ?_ fun _ => Returns.modify _
    rw [grants.writeFile]
    exact Returns.pure ()

theorem takeFragment_returns (here : s.frame = frame) (allowed : s.netboot.CopyAllowed frame) :
    ∃ result t, takeFragment fw 62 s = .ok result t := by
  subst here
  rw [takeFragment, bind_of_ok (get_run _), bind_of_ok (frameLE_run _ _ _),
    bind_of_ok (frameLE_run _ _ _)]
  split
  · exact sendAck_returns grants _ _
  · rename_i expected
    refine exists_ok_bind ?_ fun _ taken _ => sendAck_returns grants _ _
    rw [acceptFragment, bind_of_ok (get_run _), bind_of_ok (frameBytes_run _ _ _),
      bind_of_ok (modify_run _ _)]
    refine exists_ok_bind ?_ fun _ _ _ => ⟨_, _, rfl⟩
    exact Block.copy_returns (allowed (not_not.mp expected)) _

theorem receiveFragment_returns {info buffer : Block} (here : s.frame = frame)
    (hasInfo : s.netboot.fileInfo = some info) (hasBuffer : s.netboot.fileBuffer = some buffer)
    (fits : fragmentId frame = s.netboot.filePacketsTransferred →
      s.netboot.fileBytesTransferred + fragmentLength frame ≤ buffer.size)
    (ready : ∀ after, Taken frame s.progress after →
      after.netboot.fileBytesTransferred = info.fileSize → PathReady info) :
    ∃ result t, receiveFragment fw 62 s = .ok result t := by
  rw [receiveFragment, bind_of_ok (get_run _), hasInfo, Block.deref, bind_of_ok (pure_run _ _)]
  refine exists_ok_bind ?_ fun _ taken take => ?_
  · exact takeFragment_returns grants here fun expected => .inr ⟨buffer, hasBuffer, fits expected⟩
  · have isTaken : Taken frame s.progress taken.progress := (takeFragment_ok take here).2
    rw [bind_of_ok (get_run _)]
    split
    · rename_i all
      obtain ⟨later, hasLater, -⟩ := isTaken.exists_buffer hasBuffer
      exact finishTransfer_returns grants (ready _ isTaken all) hasLater
    · exact ⟨_, _, rfl⟩

/-- A fragment, or a message that does not concern the transfer, is handled to its end if the
transfer has room for the fragment, and a path once it has all bytes. -/
theorem receiveMessage_returns (calm : messageCmd frame = cmdFileFragment ∨ Unrelated frame)
    (ready : s.netboot.state = .fileTransfer → messageCmd frame = cmdFileFragment →
      ∃ info buffer, s.netboot.fileInfo = some info ∧ s.netboot.fileBuffer = some buffer ∧
        (fragmentId frame = s.netboot.filePacketsTransferred →
          s.netboot.fileBytesTransferred + fragmentLength frame ≤ buffer.size) ∧
        ∀ after, Taken frame s.progress after →
          after.netboot.fileBytesTransferred = info.fileSize → PathReady info) :
    ∃ t, receiveMessage fw frame s = .ok () t := by
  have dispatched : Returns (dispatch fw 62 (messageCmd frame)) := by
    rcases calm with cmd | cmd | cmd | cmd
    all_goals rw [cmd]
    · exact Returns.pure ()
    · exact Returns.pure ()
    · exact Returns.modify _
    · exact Returns.pure ()
  have handled : ∃ result middle,
      receiveTransfer fw 62 { s with frame := frame } = .ok result middle := by
    rw [receiveTransfer, bind_of_ok (get_run _)]
    split
    · rename_i transfer
      rw [bind_of_ok (frameLE_run _ _ _)]
      split
      · rename_i isFragment
        obtain ⟨info, buffer, hasInfo, hasBuffer, fits, path⟩ := ready transfer isFragment
        exact receiveFragment_returns grants rfl hasInfo hasBuffer fits path
      · exact ⟨_, _, rfl⟩
    · exact ⟨_, _, rfl⟩
  obtain ⟨⟨⟩, middle, handle⟩ := handled
  have here : middle.frame = frame := (receiveTransfer_ok handle rfl).1
  obtain ⟨⟨⟩, t, rest⟩ := dispatched (middle.withRead 62 4)
  refine ⟨t, ?_⟩
  rw [receiveMessage, bind_of_ok (modify_run _ _), messageStart, netbootCmdReceive,
    bind_of_ok handle, bind_of_ok (frameLE_run _ _ _), here]
  exact rest

end Returns

end VineyardLoader
