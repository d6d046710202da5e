import VineyardLoader.Net.Netboot

/-!
# What one message does

A message is handled in the frame it arrived in, 62 bytes after the start of the frame. This
module says once what the handling of a message does to the transfer
(`receiveMessage_outcome`), and the invariants of transfers follow from that.

Sending an acknowledgement touches the transmit buffers alone (`sendAck_keeps`).
-/

set_option autoImplicit false

namespace VineyardLoader

variable (fw : NetFirmware)

/-! ## Messages -/

/-- Where a netboot message starts in a frame. -/
def messageStart : Nat := 62

/-- `netboot_cmd_receive` on the message of a frame. -/
def receiveMessage (frame : Memory) : Net Unit := do
  modify fun s => { s with frame := frame }
  netbootCmdReceive fw messageStart

/-- `cmd` of the message of a frame. -/
def messageCmd (frame : Memory) : Nat := frame.loadLE 62 4

/-- `message_length` of the message of a frame. -/
def messageLength (frame : Memory) : Nat := frame.loadLE 70 8

/-- `fragment_id` of the fragment of a frame. -/
def fragmentId (frame : Memory) : Nat := frame.loadLE 78 8

/-- `data_len` of the fragment of a frame. -/
def fragmentLength (frame : Memory) : Nat := frame.loadLE 86 8

/-- `data` of the fragment of a frame. -/
def fragmentData (frame : Memory) : List UInt8 :=
  (List.range (fragmentLength frame)).map fun index => frame (94 + index)

/-- A fragment is no announcement. -/
theorem not_init_of_fragment {frame : Memory} (isFragment : messageCmd frame = cmdFileFragment) :
    messageCmd frame ≠ cmdFileSendInit := by
  rw [isFragment]
  decide

/-! ## Sending -/

variable {fw}

/-- The state without the transmit buffers. -/
def NetState.core (s : NetState) : NetState :=
  { s with mem := fun _ => 0, ethBufpool := 0, ethBufpoolAvail := 0, transmissions := [] }

theorem netBufpoolReturn_keeps (data : Nat) : Keeps NetState.core (netBufpoolReturn data) :=
  Keeps.modify fun _ => rfl

theorem netBufpoolGet_keeps (size : Nat) : Keeps NetState.core (netBufpoolGet size) := by
  intro s
  rw [netBufpoolGet, bind_of_ok (get_run _)]
  split
  · rfl
  · split <;> rfl

theorem netIp6Resolve_keeps (ip : Memory) : Keeps NetState.core (netIp6Resolve ip) :=
  Keeps.get.bind fun _ => Keeps.ite (fun _ => Keeps.pure _) fun _ =>
    Keeps.ite (fun _ => Keeps.pure _) fun _ => Keeps.pure _

theorem netIp6PacketSetup_keeps (p : Nat) (addr : Memory) (length type : Nat) :
    Keeps NetState.core (netIp6PacketSetup p addr length type) := by
  refine (netIp6Resolve_keeps addr).bind fun answer => ?_
  cases answer with
  | none => exact Keeps.pure _
  | some mac => exact Keeps.bind (Keeps.modify fun _ => rfl) fun _ => Keeps.pure _

theorem netEthSend_keeps (data len : Nat) : Keeps NetState.core (netEthSend fw data len) := by
  intro s
  rw [netEthSend, bind_of_ok (get_run _), bind_of_ok (rfl : (set _ : Net Unit) s = .ok () _)]
  split <;> rfl

theorem netUdp6Send_keeps (data : Memory) (len : Nat) (addr : Memory) (destPort sourcePort : Nat) :
    Keeps NetState.core (netUdp6Send fw data len addr destPort sourcePort) := by
  refine (netBufpoolGet_keeps _).bind fun answer => ?_
  cases answer with
  | none => exact Keeps.pure _
  | some p =>
      refine (netIp6PacketSetup_keeps _ _ _ _).bind fun found => Keeps.ite (fun _ => ?_) fun _ => ?_
      · exact Keeps.bind (Keeps.modify fun _ => rfl) fun _ => netEthSend_keeps _ _
      · exact netBufpoolReturn_keeps _

section Pool

variable {π : Type} {part : NetState → π}

theorem netAllocatePool_keeps (size : Nat) : Keeps part (netAllocatePool fw size) :=
  Keeps.get.bind fun _ => Keeps.pure _

theorem netErr_keeps (succeeded : Bool) : Keeps part (netErr succeeded) :=
  Keeps.ite (fun _ => Keeps.pure _) fun _ => Keeps.throw _

theorem netMalloc_keeps (size : Nat) : Keeps part (netMalloc fw size) := by
  refine (netAllocatePool_keeps size).bind fun answer => ?_
  cases answer with
  | none => exact Keeps.throw _
  | some block => exact Keeps.pure _

theorem netFree_keeps (block : Block) : Keeps part (netFree fw block) :=
  Keeps.get.bind fun _ => netErr_keeps _

end Pool

theorem netbootCmdSend_keeps (cmd : Nat) (data : Option Memory) (dataLen : Nat) :
    Keeps NetState.core (netbootCmdSend fw cmd data dataLen) := by
  refine (netMalloc_keeps _).bind fun msg => Keeps.get.bind fun s => ?_
  refine Keeps.ite (fun _ => ?_) fun _ => ?_
  · exact (netUdp6Send_keeps _ _ _ _ _).bind fun _ => netFree_keeps msg
  · exact (netUdp6Send_keeps _ _ _ _ _).bind fun _ => netFree_keeps msg

/-- **An acknowledgement is noted, and nothing but the transmit buffers changes.** -/
theorem sendAck_core (fw : NetFirmware) (ack : Ack) (s : NetState) :
    (finalState (sendAck fw ack s)).core = { s.core with acks := s.acks ++ [ack] } := by
  rw [sendAck, bind_of_ok (modify_run _ _), netbootCmdSend_keeps]
  rfl

/-! ## The transfer -/

/-- What a transfer consists of, with the notes about it. -/
structure Progress where
  netboot : Netboot
  accepted : List Accepted
  copies : List Access
  acks : List Ack
  fileWrites : List FileWrite

def NetState.progress (s : NetState) : Progress :=
  ⟨s.netboot, s.accepted, s.copies, s.acks, s.fileWrites⟩

namespace Progress

/-- An acknowledgement is sent. -/
def acknowledge (before : Progress) (ack : Ack) : Progress :=
  { before with acks := before.acks ++ [ack] }

/-- The fragment of a frame is taken, with the buffer as the copy leaves it. -/
def accept (before : Progress) (frame : Memory) (fileBuffer : Option Block) : Progress :=
  { before with
    netboot := { before.netboot with
      fileBuffer := fileBuffer
      fileBytesTransferred :=
        (before.netboot.fileBytesTransferred + fragmentLength frame) % 2 ^ 64
      filePacketsTransferred := (before.netboot.filePacketsTransferred + 1) % 2 ^ 64 }
    accepted := before.accepted ++ [⟨fragmentId frame, fragmentData frame⟩]
    copies := before.copies ++ [⟨before.netboot.fileBytesTransferred, fragmentLength frame,
      (before.netboot.fileBuffer.map Block.size).getD 0⟩] }

/-- The file is written and the transfer is reset. -/
def finish (before : Progress) (path : List Nat) (data : List UInt8) : Progress :=
  { before with
    netboot := ⟨.cmdWait, none, none, 0, 0⟩
    fileWrites := before.fileWrites ++ [⟨path, data, suppliedBytes before.accepted⟩] }

/-- A file is announced. The counters stay as they are. -/
def announce (before : Progress) (info : Block) (fileBuffer : Option Block) : Progress :=
  { before with
    netboot := { before.netboot with
      state := .fileTransfer, fileInfo := some info, fileBuffer := fileBuffer }
    accepted := [] }

variable (before : Progress) (frame : Memory) (fileBuffer : Option Block)

@[simp]
theorem acknowledge_netboot (ack : Ack) : (before.acknowledge ack).netboot = before.netboot := rfl

@[simp]
theorem accept_bytes : (before.accept frame fileBuffer).netboot.fileBytesTransferred =
    (before.netboot.fileBytesTransferred + fragmentLength frame) % 2 ^ 64 := rfl

@[simp]
theorem accept_packets : (before.accept frame fileBuffer).netboot.filePacketsTransferred =
    (before.netboot.filePacketsTransferred + 1) % 2 ^ 64 := rfl

@[simp]
theorem accept_accepted : (before.accept frame fileBuffer).accepted =
    before.accepted ++ [⟨fragmentId frame, fragmentData frame⟩] := rfl

@[simp]
theorem announce_bytes (info : Block) :
    (before.announce info fileBuffer).netboot.fileBytesTransferred =
      before.netboot.fileBytesTransferred := rfl

end Progress

/-- The block after a `memcpy` that was allowed. -/
inductive Copied (start size : Nat) (source : Memory) : Option Block → Option Block → Prop
  | nothing {block : Option Block} (empty : size = 0) : Copied start size source block block
  | bytes {block : Block} (some_ : 0 < size) (inside : start + size ≤ block.size) :
      Copied start size source (some block)
        (some { block with bytes := block.bytes.overwrite start size source })

/-- The block a pointer points to after an `AllocatePool` whose status is not looked at. -/
def NetFirmware.poolBlock (fw : NetFirmware) (asked : NetState) (size : Nat)
    (old : Option Block) : Option Block :=
  ((fw.allocatePool asked size).map fun answer => ⟨answer.1, size, answer.2⟩).or
    (fw.refused asked size old)

/-- The first half of the handling of a fragment: it is taken, or it is not the next one, and
it is acknowledged in both cases. -/
inductive Taken (frame : Memory) (before : Progress) : Progress → Prop
  | stale (other : fragmentId frame ≠ before.netboot.filePacketsTransferred) :
      Taken frame before (before.acknowledge ⟨cmdFileFragment,
        min (fragmentId frame) before.netboot.filePacketsTransferred⟩)
  | next {fileBuffer : Option Block}
      (expected : fragmentId frame = before.netboot.filePacketsTransferred)
      (copied : Copied before.netboot.fileBytesTransferred (fragmentLength frame)
        (fun index => frame (94 + index)) before.netboot.fileBuffer fileBuffer) :
      Taken frame before ((before.accept frame fileBuffer).acknowledge
        ⟨cmdFileFragment, before.netboot.filePacketsTransferred⟩)

/-- The bytes that are written for an announced file. -/
def Written (info : Block) (fileBuffer : Option Block) (data : List UInt8) : Prop :=
  (info.fileSize = 0 ∧ data = []) ∨
    ∃ buffer, fileBuffer = some buffer ∧ data = (List.range info.fileSize).map buffer.bytes

/-- What a message can do to a transfer. -/
inductive Outcome (fw : NetFirmware) (frame : Memory) (before : Progress) : Progress → Prop
  /-- The message is neither an announcement nor a fragment during a transfer. -/
  | quiet (notInit : messageCmd frame ≠ cmdFileSendInit)
      (notFragment : ¬ (before.netboot.state = .fileTransfer ∧ messageCmd frame = cmdFileFragment)) :
      Outcome fw frame before before
  /-- A fragment that does not end the transfer. -/
  | fragment {info : Block} {after : Progress}
      (transfer : before.netboot.state = .fileTransfer)
      (isFragment : messageCmd frame = cmdFileFragment)
      (known : before.netboot.fileInfo = some info) (taken : Taken frame before after)
      (more : after.netboot.fileBytesTransferred ≠ info.fileSize) :
      Outcome fw frame before after
  /-- A fragment after which the transfer has as many bytes as were announced. -/
  | last {info : Block} {after : Progress} {path : List Nat} {data : List UInt8}
      (transfer : before.netboot.state = .fileTransfer)
      (isFragment : messageCmd frame = cmdFileFragment)
      (known : before.netboot.fileInfo = some info) (taken : Taken frame before after)
      (all : after.netboot.fileBytesTransferred = info.fileSize)
      (written : Written info after.netboot.fileBuffer data) :
      Outcome fw frame before (after.finish path data)
  /-- The announcement of a file. -/
  | init {info : Block} {old : Option Block} (asked : NetState)
      (isInit : messageCmd frame = cmdFileSendInit)
      (copied : Copied 0 ((messageLength frame + 2 ^ 64 - 16) % 2 ^ 64)
        (fun index => frame (78 + index)) old (some info)) :
      Outcome fw frame before
        ((before.announce info (fw.poolBlock asked info.fileSize before.netboot.fileBuffer)).acknowledge
          ⟨cmdFileSendInit, 0⟩)

theorem Taken.acks_eq {frame : Memory} {before after : Progress} (taken : Taken frame before after) :
    after.acks = before.acks ++ [⟨cmdFileFragment,
      min (fragmentId frame) before.netboot.filePacketsTransferred⟩] := by
  cases taken with
  | stale => rfl
  | next expected =>
      rw [expected, Nat.min_self]
      rfl

/-- A message is acknowledged at most once. -/
theorem Outcome.acks_length {fw : NetFirmware} {frame : Memory} {before after : Progress}
    (outcome : Outcome fw frame before after) : after.acks.length ≤ before.acks.length + 1 := by
  have once : ∀ {taken : Progress}, Taken frame before taken →
      taken.acks.length ≤ before.acks.length + 1 := by
    intro other taken
    rw [taken.acks_eq, List.length_append, List.length_singleton]
  cases outcome with
  | quiet => omega
  | fragment _ _ _ taken => exact once taken
  | last _ _ _ taken =>
      have bound := once taken
      exact bound
  | init => exact Nat.le_of_eq (List.length_append ..)

section Runs

variable {s t : NetState} {frame : Memory}

@[simp]
theorem NetState.withRead_progress (offset size : Nat) :
    (s.withRead offset size).progress = s.progress := rfl

@[simp]
theorem NetState.withRead_netboot (offset size : Nat) :
    (s.withRead offset size).netboot = s.netboot := rfl

@[simp]
theorem frameLE_run (offset width : Nat) (s : NetState) :
    frameLE offset width s = .ok (s.frame.loadLE offset width) (s.withRead offset width) := rfl

@[simp]
theorem frameBytes_run (offset size : Nat) (s : NetState) :
    frameBytes offset size s =
      .ok (fun index => s.frame (offset + index)) (s.withRead offset size) := rfl

theorem Block.copy_ok {block result : Option Block} {start size : Nat} {source : Memory} :
    Block.copy block start size source s = .ok result t ↔
      t = s ∧ Copied start size source block result := by
  unfold Block.copy
  by_cases empty : size = 0
  · rw [if_pos empty, pure_run, EStateM.Result.ok.injEq]
    constructor
    · rintro ⟨rfl, rfl⟩
      exact ⟨rfl, .nothing empty⟩
    · rintro ⟨rfl, copied⟩
      cases copied with
      | nothing => exact ⟨rfl, rfl⟩
      | bytes some_ => exact absurd empty some_.ne'
  · rw [if_neg empty]
    cases block with
    | none =>
        apply iff_of_false (by simp)
        rintro ⟨-, copied⟩
        cases copied
        contradiction
    | some block =>
        simp only
        split
        · rename_i inside
          rw [pure_run, EStateM.Result.ok.injEq]
          constructor
          · rintro ⟨rfl, rfl⟩
            exact ⟨rfl, .bytes (Nat.pos_of_ne_zero empty) inside⟩
          · rintro ⟨rfl, copied⟩
            cases copied with
            | nothing zero => exact absurd zero empty
            | bytes => exact ⟨rfl, rfl⟩
        · rename_i outside
          apply iff_of_false (by simp)
          rintro ⟨-, copied⟩
          cases copied with
          | nothing zero => exact empty zero
          | bytes _ inside => exact outside inside

theorem Block.deref_ok {block : Option Block} {result : Block} :
    Block.deref block s = .ok result t ↔ t = s ∧ block = some result := by
  cases block with
  | none => simp [Block.deref]
  | some block =>
      rw [Block.deref, pure_run, EStateM.Result.ok.injEq, Option.some.injEq]
      constructor
      · rintro ⟨rfl, rfl⟩
        exact ⟨rfl, rfl⟩
      · rintro ⟨rfl, rfl⟩
        exact ⟨rfl, rfl⟩

theorem sendAck_ok {ack : Ack} (run : sendAck fw ack s = .ok () t) :
    t.progress = s.progress.acknowledge ack ∧ t.frame = s.frame := by
  have same := sendAck_core fw ack s
  rw [run] at same
  have progress := congrArg NetState.progress same
  have frame := congrArg NetState.frame same
  exact ⟨progress, frame⟩

theorem acceptFragment_ok
    (run : acceptFragment 62 (fragmentId frame) (fragmentLength frame) s = .ok () t)
    (here : s.frame = frame) :
    t.frame = frame ∧ ∃ fileBuffer,
      Copied s.netboot.fileBytesTransferred (fragmentLength frame)
        (fun index => frame (94 + index)) s.netboot.fileBuffer fileBuffer ∧
      t.progress = s.progress.accept frame fileBuffer := by
  subst here
  rw [acceptFragment, bind_of_ok (get_run _), bind_of_ok (frameBytes_run _ _ _),
    bind_of_ok (modify_run _ _)] at run
  obtain ⟨fileBuffer, copied, copy, run⟩ := bind_eq_ok.mp run
  obtain ⟨rfl, here⟩ := Block.copy_ok.mp copy
  cases run
  exact ⟨rfl, fileBuffer, here, rfl⟩

theorem filePath_keeps {π : Type} {part : NetState → π}
    (ignoresPath : ∀ s reads, part { s with pathReads := reads } = part s) (info : Block) :
    Keeps part (filePath fw info) := by
  unfold filePath
  split
  · exact Keeps.bind (Keeps.modify fun _ => ignoresPath _ _) fun _ => Keeps.throw _
  · refine Keeps.bind (Keeps.modify fun _ => ignoresPath _ _) fun _ => ?_
    refine (netMalloc_keeps _).bind fun _ => ?_
    split
    · exact Keeps.pure _
    · exact Keeps.throw _

theorem openFile_keeps {π : Type} {part : NetState → π}
    (ignoresPath : ∀ s reads, part { s with pathReads := reads } = part s) (info : Block) :
    Keeps part (openFile fw info) := by
  have call : ∀ (answer : NetState → Bool) {rest : Net (List Nat)}, Keeps part rest →
      Keeps part (do netErr (answer (← get)); rest) :=
    fun _ _ keeps => Keeps.get.bind fun _ => (netErr_keeps _).bind fun _ => keeps
  refine (filePath_keeps ignoresPath info).bind fun path => ?_
  exact call _ (call _ (call _ (call (fun s => fw.openFile s path) (Keeps.pure path))))

theorem fileData_ok {info : Block} {data : List UInt8} (run : fileData info s = .ok data t) :
    t = s ∧ Written info s.netboot.fileBuffer data := by
  unfold fileData at run
  split at run
  · rename_i empty
    cases run
    exact ⟨rfl, .inl ⟨empty, rfl⟩⟩
  · rw [bind_of_ok (get_run _)] at run
    obtain ⟨buffer, middle, deref, done⟩ := bind_eq_ok.mp run
    obtain ⟨rfl, known⟩ := Block.deref_ok.mp deref
    rw [pure_run, EStateM.Result.ok.injEq] at done
    exact ⟨done.2.symm, .inr ⟨buffer, known, done.1.symm⟩⟩

/-- The frame and the transfer. -/
def NetState.view (s : NetState) : Memory × Progress := (s.frame, s.progress)

theorem writeFile_ok {path : List Nat} {data : List UInt8}
    (run : writeFile fw path data s = .ok () t) :
    t.frame = s.frame ∧ t.progress = { s.progress with
      fileWrites := s.fileWrites ++ [⟨path, data, suppliedBytes s.accepted⟩] } := by
  rw [writeFile, bind_of_ok (get_run _)] at run
  obtain ⟨⟨⟩, checked, check, done⟩ := bind_eq_ok.mp run
  have same : id checked = id s := (netErr_keeps _).ok check
  obtain rfl : checked = s := same
  cases done
  exact ⟨rfl, rfl⟩

theorem finishTransfer_ok {info : Block} (run : finishTransfer fw info s = .ok () t) :
    t.frame = s.frame ∧ ∃ path data, Written info s.netboot.fileBuffer data ∧
      t.progress = s.progress.finish path data := by
  obtain ⟨path, opened, opens, rest⟩ := bind_eq_ok.mp run
  have kept : opened.view = s.view := (openFile_keeps (fun _ _ => rfl) info).ok opens
  obtain ⟨frame, progress⟩ : opened.frame = s.frame ∧ opened.progress = s.progress :=
    Prod.mk.inj kept
  have buffer : opened.netboot.fileBuffer = s.netboot.fileBuffer :=
    congrArg (fun p => p.netboot.fileBuffer) progress
  obtain ⟨data, read, reads, rest'⟩ := bind_eq_ok.mp rest
  obtain ⟨rfl, written⟩ := fileData_ok reads
  obtain ⟨⟨⟩, stored, stores, done⟩ := bind_eq_ok.mp rest'
  obtain ⟨storedFrame, storedProgress⟩ := writeFile_ok stores
  cases done
  refine ⟨storedFrame.trans frame, path, data, buffer ▸ written, ?_⟩
  rw [← progress]
  have reset := congrArg (fun p : Progress => { p with netboot := ⟨.cmdWait, none, none, 0, 0⟩ })
    storedProgress
  exact reset

theorem takeFragment_ok (run : takeFragment fw 62 s = .ok () t) (here : s.frame = frame) :
    t.frame = frame ∧ Taken frame s.progress t.progress := by
  subst here
  rw [takeFragment, bind_of_ok (get_run _), bind_of_ok (frameLE_run _ _ _),
    bind_of_ok (frameLE_run _ _ _)] at run
  split at run
  · rename_i other
    obtain ⟨progress, frame⟩ := sendAck_ok run
    refine ⟨frame, ?_⟩
    rw [progress, ← min_def_lt]
    exact .stale other
  · rename_i expected
    obtain ⟨⟨⟩, taken, accept, ack⟩ := bind_eq_ok.mp run
    obtain ⟨takenFrame, fileBuffer, copied, progress⟩ := acceptFragment_ok accept rfl
    obtain ⟨acked, frame⟩ := sendAck_ok ack
    refine ⟨frame.trans takenFrame, ?_⟩
    rw [acked, progress]
    exact .next (not_not.mp expected) copied

/-- The handling of a fragment during a transfer. -/
theorem receiveFragment_ok (run : receiveFragment fw 62 s = .ok () t) (here : s.frame = frame) :
    t.frame = frame ∧ ∃ info middle, s.netboot.fileInfo = some info ∧
      Taken frame s.progress middle ∧
      ((middle.netboot.fileBytesTransferred ≠ info.fileSize ∧ t.progress = middle) ∨
        (middle.netboot.fileBytesTransferred = info.fileSize ∧
          ∃ path data, Written info middle.netboot.fileBuffer data ∧
            t.progress = middle.finish path data)) := by
  rw [receiveFragment, bind_of_ok (get_run _)] at run
  obtain ⟨info, known, deref, rest⟩ := bind_eq_ok.mp run
  obtain ⟨rfl, hasInfo⟩ := Block.deref_ok.mp deref
  obtain ⟨⟨⟩, taken, take, rest'⟩ := bind_eq_ok.mp rest
  obtain ⟨takenFrame, isTaken⟩ := takeFragment_ok take here
  rw [bind_of_ok (get_run _)] at rest'
  split at rest'
  · rename_i all
    obtain ⟨frame, path, data, written, progress⟩ := finishTransfer_ok rest'
    exact ⟨frame.trans takenFrame, info, taken.progress, hasInfo, isTaken,
      .inr ⟨all, path, data, written, progress⟩⟩
  · rename_i more
    cases rest'
    exact ⟨takenFrame, info, _, hasInfo, isTaken, .inl ⟨more, rfl⟩⟩

@[simp]
theorem netAllocatePool_run (size : Nat) (s : NetState) :
    netAllocatePool fw size s =
      .ok ((fw.allocatePool s size).map fun answer => ⟨answer.1, size, answer.2⟩) s := rfl

theorem receiveInfo_ok {fileInfo : Option Block} (run : receiveInfo fw 62 s = .ok fileInfo t)
    (here : s.frame = frame) :
    t.frame = frame ∧ t.progress = s.progress ∧ ∃ old,
      Copied 0 ((messageLength frame + 2 ^ 64 - 16) % 2 ^ 64)
        (fun index => frame (78 + index)) old fileInfo := by
  subst here
  rw [receiveInfo, bind_of_ok (frameLE_run _ _ _), bind_of_ok (modify_run _ _),
    bind_of_ok (netAllocatePool_run _ _), bind_of_ok (get_run _),
    bind_of_ok (frameBytes_run _ _ _)] at run
  obtain ⟨rfl, copied⟩ := Block.copy_ok.mp run
  exact ⟨rfl, rfl, _, copied⟩

theorem startTransfer_ok {fileInfo : Option Block} (run : startTransfer fw fileInfo s = .ok () t) :
    t.frame = s.frame ∧ ∃ info asked, fileInfo = some info ∧
      t.progress =
        s.progress.announce info (fw.poolBlock asked info.fileSize s.netboot.fileBuffer) := by
  rw [startTransfer, bind_of_ok (modify_run _ _)] at run
  obtain ⟨info, known, deref, rest⟩ := bind_eq_ok.mp run
  obtain ⟨rfl, rfl⟩ := Block.deref_ok.mp deref
  rw [bind_of_ok (netAllocatePool_run _ _), bind_of_ok (get_run _), modify_run,
    EStateM.Result.ok.injEq] at rest
  obtain ⟨-, rfl⟩ := rest
  exact ⟨rfl, info, _, rfl, rfl⟩

/-- The announcement of a file. -/
theorem receiveInit_ok (run : receiveInit fw 62 s = .ok () t) (here : s.frame = frame)
    (isInit : messageCmd frame = cmdFileSendInit) : Outcome fw frame s.progress t.progress := by
  obtain ⟨fileInfo, informed, inform, rest⟩ := bind_eq_ok.mp run
  obtain ⟨informedFrame, informedProgress, old, copied⟩ := receiveInfo_ok inform here
  obtain ⟨⟨⟩, started, start, ack⟩ := bind_eq_ok.mp rest
  obtain ⟨-, info, asked, rfl, startedProgress⟩ := startTransfer_ok start
  rw [(sendAck_ok ack).1, startedProgress]
  have same : informed.netboot.fileBuffer = s.progress.netboot.fileBuffer :=
    congrArg (fun p => p.netboot.fileBuffer) informedProgress
  rw [informedProgress, same]
  exact .init asked isInit copied

/-- A command other than an announcement touches only the two flags. -/
theorem dispatch_keeps {π : Type} {part : NetState → π} {data cmd : Nat}
    (ignoresFlags : ∀ s goOn stop,
      part { s with netPollContinue := goOn, netStopAdvertising := stop } = part s)
    (notInit : cmd ≠ cmdFileSendInit) : Keeps part (dispatch fw data cmd) := by
  have stop : Keeps part (modify fun s => { s with netPollContinue := false } : Net Unit) :=
    Keeps.modify fun s => ignoresFlags s false s.netStopAdvertising
  refine Keeps.ite (fun _ => stop.bind fun _ => Keeps.get.bind fun s => ?_) fun _ => ?_
  · exact Keeps.ite (fun _ => Keeps.throw _) fun _ => Keeps.pure _
  refine Keeps.ite (fun _ => Keeps.modify fun s => ignoresFlags s s.netPollContinue true) fun _ => ?_
  refine Keeps.ite (fun _ => stop.bind fun _ => Keeps.throw _) fun _ => ?_
  refine Keeps.ite (fun _ => stop.bind fun _ => Keeps.throw _) fun _ => ?_
  refine Keeps.ite (fun isInit => absurd isInit notInit) fun _ => ?_
  exact Keeps.ite (fun _ => stop) fun _ => Keeps.pure _

theorem dispatch_init : dispatch fw 62 cmdFileSendInit = receiveInit fw 62 := rfl

/-- The part of the handling of a message during a transfer. -/
theorem receiveTransfer_ok (run : receiveTransfer fw 62 s = .ok () t) (here : s.frame = frame) :
    t.frame = frame ∧
      ((¬ (s.netboot.state = .fileTransfer ∧ messageCmd frame = cmdFileFragment) ∧
          t.progress = s.progress) ∨
        (messageCmd frame = cmdFileFragment ∧ Outcome fw frame s.progress t.progress)) := by
  rw [receiveTransfer, bind_of_ok (get_run _)] at run
  split at run
  · rename_i transfer
    rw [bind_of_ok (frameLE_run _ _ _), here] at run
    split at run
    · rename_i isFragment
      obtain ⟨handledFrame, info, middle, known, taken, ending⟩ := receiveFragment_ok run here
      refine ⟨handledFrame, .inr ⟨isFragment, ?_⟩⟩
      rcases ending with ⟨more, rfl⟩ | ⟨all, path, data, written, progress⟩
      · exact .fragment transfer isFragment known taken more
      · rw [progress]
        exact .last transfer isFragment known taken all written
    · rename_i other
      cases run
      exact ⟨here, .inl ⟨fun both => other both.2, rfl⟩⟩
  · rename_i idle
    cases run
    exact ⟨here, .inl ⟨fun both => idle both.1, rfl⟩⟩

/-- **What the handling of a message does to the transfer.** -/
theorem receiveMessage_outcome (run : receiveMessage fw frame s = .ok () t) :
    Outcome fw frame s.progress t.progress := by
  rw [receiveMessage, bind_of_ok (modify_run _ _), messageStart] at run
  obtain ⟨⟨⟩, handled, handle, rest⟩ := bind_eq_ok.mp run
  obtain ⟨handledFrame, outcome⟩ := receiveTransfer_ok handle rfl
  rw [bind_of_ok (frameLE_run _ _ _), handledFrame] at rest
  rcases outcome with ⟨notFragment, same⟩ | ⟨isFragment, outcome⟩
  · by_cases isInit : messageCmd frame = cmdFileSendInit
    · have init : dispatch fw 62 (frame.loadLE 62 4) = receiveInit fw 62 := by
        rw [← dispatch_init, ← isInit, messageCmd]
      rw [init] at rest
      have announced := receiveInit_ok rest handledFrame isInit
      rw [NetState.withRead_progress, same] at announced
      exact announced
    · have kept : t.progress = _ := (dispatch_keeps (fun _ _ _ => rfl) isInit).ok rest
      rw [NetState.withRead_progress, same] at kept
      rw [kept]
      exact .quiet isInit notFragment
  · -- a fragment has been handled, and the dispatch has nothing for it
    have kept : t.progress = _ :=
      (dispatch_keeps (fun _ _ _ => rfl) (not_init_of_fragment isFragment)).ok rest
    rw [NetState.withRead_progress] at kept
    rw [kept]
    exact outcome

end Runs

/-! ## Messages that stop the program -/

section Stopping

variable {π : Type} {part : NetState → π}

theorem Block.copy_keeps (block : Option Block) (start size : Nat) (source : Memory) :
    Keeps part (Block.copy block start size source) := by
  refine Keeps.ite (fun _ => Keeps.pure _) fun _ => ?_
  cases block with
  | none => exact Keeps.throw _
  | some block => exact Keeps.ite (fun _ => Keeps.pure _) fun _ => Keeps.throw _

theorem Block.deref_keeps (block : Option Block) : Keeps part (Block.deref block) := by
  cases block with
  | none => exact Keeps.throw _
  | some block => exact Keeps.pure _

theorem frameLE_keeps (ignoresReads : ∀ s reads, part { s with frameReads := reads } = part s)
    (offset width : Nat) : Keeps part (frameLE offset width) :=
  Keeps.bind (Keeps.modify fun _ => ignoresReads _ _) fun _ => Keeps.get.bind fun _ => Keeps.pure _

theorem frameBytes_keeps (ignoresReads : ∀ s reads, part { s with frameReads := reads } = part s)
    (offset size : Nat) : Keeps part (frameBytes offset size) :=
  Keeps.bind (Keeps.modify fun _ => ignoresReads _ _) fun _ => Keeps.get.bind fun _ => Keeps.pure _

theorem sendAck_keeps (ofCore : ∀ s : NetState, part s.core = part s)
    (ignoresAcks : ∀ s acks, part { s with acks := acks } = part s) (ack : Ack) :
    Keeps part (sendAck fw ack) := by
  intro s
  rw [← ofCore, sendAck_core, ignoresAcks, ofCore]

theorem fileData_keeps (info : Block) : Keeps part (fileData info) :=
  Keeps.ite (fun _ => Keeps.pure _) fun _ =>
    Keeps.get.bind fun _ => (Block.deref_keeps _).bind fun _ => Keeps.pure _

end Stopping

/-- The copies into the file buffer and the files written. -/
def NetState.stores (s : NetState) : List Access × List FileWrite := (s.copies, s.fileWrites)

theorem receiveInit_stores : Keeps NetState.stores (receiveInit fw 62) := by
  have info : Keeps NetState.stores (receiveInfo fw 62) := by
    refine (frameLE_keeps (fun _ _ => rfl) _ _).bind fun _ => ?_
    refine Keeps.bind (Keeps.modify fun _ => rfl) fun _ => ?_
    refine (netAllocatePool_keeps _).bind fun _ => Keeps.get.bind fun _ => ?_
    exact (frameBytes_keeps (fun _ _ => rfl) _ _).bind fun _ => Block.copy_keeps _ _ _ _
  have start : ∀ fileInfo, Keeps NetState.stores (startTransfer fw fileInfo) := by
    intro fileInfo
    refine Keeps.bind (Keeps.modify fun _ => rfl) fun _ => (Block.deref_keeps _).bind fun _ => ?_
    refine (netAllocatePool_keeps _).bind fun _ => Keeps.get.bind fun _ => ?_
    exact Keeps.modify fun _ => rfl
  exact info.bind fun fileInfo => (start fileInfo).bind fun _ =>
    sendAck_keeps (fun _ => rfl) (fun _ _ => rfl) _

theorem dispatch_stores (cmd : Nat) : Keeps NetState.stores (dispatch fw 62 cmd) := by
  by_cases isInit : cmd = cmdFileSendInit
  · subst isInit
    exact receiveInit_stores
  · exact dispatch_keeps (fun _ _ _ => rfl) isInit

theorem finishTransfer_copies (info : Block) : Keeps NetState.copies (finishTransfer fw info) := by
  refine (openFile_keeps (fun _ _ => rfl) info).bind fun path => ?_
  refine (fileData_keeps info).bind fun data => ?_
  refine Keeps.bind (Keeps.get.bind fun _ => (netErr_keeps _).bind fun _ => ?_) fun _ => ?_
  · exact Keeps.modify fun _ => rfl
  · exact Keeps.modify fun _ => rfl

section Stopped

variable {s t : NetState} {frame : Memory}

/-- The fragment of a frame is the next one of the transfer. -/
def Netboot.Expects (netboot : Netboot) (frame : Memory) : Prop :=
  netboot.state = .fileTransfer ∧ messageCmd frame = cmdFileFragment ∧
    fragmentId frame = netboot.filePacketsTransferred

/-- The copy of the fragment of a frame, if there is one, stays in the file buffer. -/
def Netboot.CopyAllowed (netboot : Netboot) (frame : Memory) : Prop :=
  fragmentId frame = netboot.filePacketsTransferred → fragmentLength frame = 0 ∨
    ∃ buffer, netboot.fileBuffer = some buffer ∧
      netboot.fileBytesTransferred + fragmentLength frame ≤ buffer.size

/-- The copy of the data of a fragment into the file buffer. -/
def Netboot.fragmentCopy (netboot : Netboot) (frame : Memory) : Access :=
  ⟨netboot.fileBytesTransferred, fragmentLength frame, (netboot.fileBuffer.map Block.size).getD 0⟩

theorem acceptFragment_copies (fragmentId dataLen : Nat) (s : NetState) :
    (finalState (acceptFragment 62 fragmentId dataLen s)).copies =
      s.copies ++ [⟨s.netboot.fileBytesTransferred, dataLen,
        (s.netboot.fileBuffer.map Block.size).getD 0⟩] := by
  rw [acceptFragment, bind_of_ok (get_run _), bind_of_ok (frameBytes_run _ _ _),
    bind_of_ok (modify_run _ _)]
  refine (Keeps.after (fun _ => (?_ : Keeps NetState.copies _)) _).trans ?_
  · exact Keeps.modify fun _ => rfl
  · exact (Block.copy_keeps _ _ _ _ : Keeps NetState.copies _) _

theorem takeFragment_copies (here : s.frame = frame) :
    (fragmentId frame ≠ s.netboot.filePacketsTransferred ∧
        (finalState (takeFragment fw 62 s)).copies = s.copies) ∨
      (fragmentId frame = s.netboot.filePacketsTransferred ∧
        (finalState (takeFragment fw 62 s)).copies = s.copies ++ [s.netboot.fragmentCopy frame]) := by
  subst here
  have ack : ∀ ack, Keeps NetState.copies (sendAck fw ack) :=
    sendAck_keeps (fun _ => rfl) fun _ _ => rfl
  rw [takeFragment, bind_of_ok (get_run _), bind_of_ok (frameLE_run _ _ _),
    bind_of_ok (frameLE_run _ _ _)]
  split
  · rename_i other
    exact .inl ⟨other, ack _ _⟩
  · rename_i expected
    refine .inr ⟨not_not.mp expected, ?_⟩
    rw [Keeps.after fun _ => ack _, acceptFragment_copies]
    rfl

theorem receiveFragment_copies (fw : NetFirmware) (here : s.frame = frame) :
    ((s.netboot.fileInfo.isSome → fragmentId frame ≠ s.netboot.filePacketsTransferred) ∧
        (finalState (receiveFragment fw 62 s)).copies = s.copies) ∨
      (fragmentId frame = s.netboot.filePacketsTransferred ∧
        (finalState (receiveFragment fw 62 s)).copies =
          s.copies ++ [s.netboot.fragmentCopy frame]) := by
  rw [receiveFragment, bind_of_ok (get_run _)]
  cases s.netboot.fileInfo with
  | none => exact .inl ⟨nofun, rfl⟩
  | some info =>
      have ending : ∀ _ : Unit, Keeps NetState.copies (do
          if (← get).netboot.fileBytesTransferred = info.fileSize then finishTransfer fw info) :=
        fun _ => Keeps.get.bind fun _ =>
          Keeps.ite (fun _ => finishTransfer_copies info) fun _ => Keeps.pure _
      rw [Block.deref, bind_of_ok (pure_run _ _), Keeps.after ending]
      exact (takeFragment_copies here).imp_left fun ⟨other, same⟩ => ⟨fun _ => other, same⟩

/-- **The handling of a message makes at most one copy**, whichever way it ends: that of the
fragment that the transfer expects. -/
theorem receiveMessage_copies (fw : NetFirmware) (frame : Memory) (s : NetState) :
    ((s.netboot.fileInfo.isSome → ¬ s.netboot.Expects frame) ∧
        (finalState (receiveMessage fw frame s)).copies = s.copies) ∨
      (s.netboot.Expects frame ∧ (finalState (receiveMessage fw frame s)).copies =
        s.copies ++ [s.netboot.fragmentCopy frame]) := by
  have dispatched : ∀ cmd, Keeps NetState.copies (dispatch fw 62 cmd) :=
    fun cmd state => congrArg Prod.fst (dispatch_stores cmd state)
  have rest : ∀ _ : Unit, Keeps NetState.copies (frameLE 62 4 >>= dispatch fw 62) :=
    fun _ => (frameLE_keeps (fun _ _ => rfl) _ _).bind dispatched
  rw [receiveMessage, bind_of_ok (modify_run _ _), messageStart, netbootCmdReceive,
    Keeps.after rest, receiveTransfer, bind_of_ok (get_run _)]
  split
  · rename_i transfer
    rw [bind_of_ok (frameLE_run _ _ _)]
    split
    · rename_i isFragment
      generalize read : NetState.withRead { s with frame := frame } 62 4 = begun
      have netboot : begun.netboot = s.netboot := read ▸ rfl
      have copies : begun.copies = s.copies := read ▸ rfl
      have here : begun.frame = frame := read ▸ rfl
      have handled := receiveFragment_copies fw here
      rw [netboot, copies] at handled
      rcases handled with ⟨other, same⟩ | ⟨expected, copied⟩
      · exact .inl ⟨fun known expects => other known expects.2.2, same⟩
      · exact .inr ⟨⟨transfer, isFragment, expected⟩, copied⟩
    · rename_i other
      exact .inl ⟨fun _ expects => other expects.2.1, rfl⟩
  · rename_i idle
    exact .inl ⟨fun _ expects => idle expects.1, rfl⟩

/-- Where the end of a transfer stops, it has only read the path. -/
theorem finishTransfer_error {π : Type} {part : NetState → π} {info : Block} {reason : Halt}
    (ignoresPath : ∀ s reads, part { s with pathReads := reads } = part s)
    (run : finishTransfer fw info s = .error reason t) : part t = part s := by
  have opens : Keeps part (openFile fw info) := openFile_keeps ignoresPath info
  have reads : Keeps part (fileData info) := fileData_keeps info
  rcases bind_eq_error.mp run with stopped | ⟨path, opened, openRun, rest⟩
  · exact opens.error stopped
  rcases bind_eq_error.mp rest with stopped | ⟨data, read, readRun, rest'⟩
  · exact (reads.error stopped).trans (opens.ok openRun)
  rcases bind_eq_error.mp rest' with stopped | ⟨⟨⟩, stored, -, reset⟩
  · rw [writeFile, bind_of_ok (get_run _)] at stopped
    rcases bind_eq_error.mp stopped with refused | ⟨⟨⟩, granted, -, store⟩
    · have kept : part t = part read := (netErr_keeps _).error refused
      exact kept.trans ((reads.ok readRun).trans (opens.ok openRun))
    · cases store
  · cases reset

theorem receiveFragment_error {reason : Halt} (run : receiveFragment fw 62 s = .error reason t) :
    t.fileWrites = s.fileWrites := by
  have takes : Keeps NetState.fileWrites (takeFragment fw 62) := by
    have ack : ∀ ack, Keeps NetState.fileWrites (sendAck fw ack) :=
      sendAck_keeps (fun _ => rfl) fun _ _ => rfl
    refine Keeps.get.bind fun _ => (frameLE_keeps (fun _ _ => rfl) _ _).bind fun _ => ?_
    refine (frameLE_keeps (fun _ _ => rfl) _ _).bind fun _ => Keeps.ite (fun _ => ack _) fun _ => ?_
    refine Keeps.bind (Keeps.get.bind fun _ => ?_) fun _ => ack _
    refine (frameBytes_keeps (fun _ _ => rfl) _ _).bind fun _ => ?_
    refine Keeps.bind (Keeps.modify fun _ => rfl) fun _ => ?_
    exact (Block.copy_keeps _ _ _ _).bind fun _ => Keeps.modify fun _ => rfl
  rw [receiveFragment, bind_of_ok (get_run _)] at run
  rcases bind_eq_error.mp run with stopped | ⟨info, known, deref, rest⟩
  · exact (Block.deref_keeps _ : Keeps NetState.fileWrites _).error stopped
  obtain ⟨rfl, -⟩ := Block.deref_ok.mp deref
  rcases bind_eq_error.mp rest with stopped | ⟨⟨⟩, taken, take, rest'⟩
  · exact takes.error stopped
  rw [bind_of_ok (get_run _)] at rest'
  split at rest'
  · exact (finishTransfer_error (fun _ _ => rfl) rest').trans (takes.ok take)
  · cases rest'

/-- A message that stops the program has not written a file. -/
theorem receiveMessage_error {reason : Halt} (run : receiveMessage fw frame s = .error reason t) :
    t.fileWrites = s.fileWrites := by
  rw [receiveMessage, bind_of_ok (modify_run _ _), messageStart] at run
  rcases bind_eq_error.mp run with stopped | ⟨⟨⟩, handled, handle, rest⟩
  · rw [receiveTransfer, bind_of_ok (get_run _)] at stopped
    split at stopped
    · rw [bind_of_ok (frameLE_run _ _ _)] at stopped
      split at stopped
      · have kept := receiveFragment_error stopped
        exact kept
      · cases stopped
    · cases stopped
  · obtain ⟨handledFrame, outcome⟩ := receiveTransfer_ok handle rfl
    rw [bind_of_ok (frameLE_run _ _ _), handledFrame] at rest
    rcases outcome with ⟨-, same⟩ | ⟨isFragment, -⟩
    · have kept := congrArg Prod.snd ((dispatch_stores _).error rest)
      exact kept.trans (congrArg Progress.fileWrites same)
    · rw [show frame.loadLE 62 4 = cmdFileFragment from isFragment] at rest
      cases rest

end Stopped

end VineyardLoader
