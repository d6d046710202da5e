import VineyardLoader.Foundation.Chunks
import VineyardLoader.Net.Paths
import VineyardLoader.Net.Calls

/-!
# The transfer of a file

A sender announces a file and sends its chunks as fragments. Fragments may be lost, repeated
and reordered. The receiver takes a fragment only when it is the next one, so its state is a
function of one number, the fragments accepted so far (`Receiving`). Once every fragment has
been accepted in order the file is written once, and the receiver is idle again
(`receiveMessages_transfer`).

The writing converts the path of the file. A path whose last character is cut off by the end
of the string makes the conversion run past the end, and the file is then not written
(`cut_off_path_stops`).
-/

set_option autoImplicit false

namespace VineyardLoader

/-! ## What is sent -/

/-- The message of a frame announces a file under a path that ends with a zero. -/
structure Announces (frame : Memory) (file : List UInt8) (dataPerPacket : Nat)
    (path : List UInt8) : Prop where
  isInit : messageCmd frame = cmdFileSendInit
  fileSize : frame.loadLE 78 8 = file.length
  dataPerPacket : frame.loadLE 86 8 = dataPerPacket
  long : 48 + path.length < messageLength frame
  holds : HoldsString frame 110 path

/-- The message of a frame is a fragment of the file. -/
def Genuine (file : List UInt8) (dataPerPacket : Nat) (frame : Memory) : Prop :=
  messageCmd frame = cmdFileFragment ∧
    fragmentId frame < chunkCount file dataPerPacket ∧
    fragmentData frame = chunk file dataPerPacket (fragmentId frame)

/-- The number of fragments accepted in order, after one more message. -/
def advance (count : Nat) (frame : Memory) : Nat :=
  if messageCmd frame = cmdFileFragment ∧ fragmentId frame = count then count + 1 else count

/-- The number of fragments that a receiver of the messages has accepted in order. -/
def acceptedCount (frames : List Memory) : Nat := frames.foldl advance 0

/-! ## The receiver -/

/-- The buffer holds the first chunks of a file, and the counters count them. -/
structure Stored (file : List UInt8) (dataPerPacket count : Nat) (transfer : Progress) : Prop where
  packets : transfer.netboot.filePacketsTransferred = count
  bytes : transfer.netboot.fileBytesTransferred = min (count * dataPerPacket) file.length
  held : ∀ index, index < transfer.netboot.fileBytesTransferred →
    (transfer.netboot.fileBuffer.map fun buffer => buffer.bytes index) = file[index]?

/-- The transfer of a file is going on, with some chunks still missing. -/
structure Receiving (file : List UInt8) (dataPerPacket : Nat) (info : Block) (count : Nat)
    (transfer : Progress) : Prop where
  state : transfer.netboot.state = .fileTransfer
  hasInfo : transfer.netboot.fileInfo = some info
  stored : Stored file dataPerPacket count transfer
  more : count * dataPerPacket < file.length

/-- Every chunk has been received, the file has been written after the earlier ones, and the
receiver is idle. -/
structure Received (file : List UInt8) (dataPerPacket : Nat) (earlier : List FileWrite)
    (count : Nat) (transfer : Progress) : Prop where
  all : count = chunkCount file dataPerPacket
  idle : transfer.netboot = ⟨.cmdWait, none, none, 0, 0⟩
  written : ∃ write, transfer.fileWrites = earlier ++ [write] ∧ write.data = file

section Receiver

variable {fw : NetFirmware} {file : List UInt8} {dataPerPacket count : Nat} {frame : Memory}
  {info : Block} {earlier : List FileWrite} {before after : Progress}

theorem Genuine.length_eq (genuine : Genuine file dataPerPacket frame) :
    fragmentLength frame =
      min dataPerPacket (file.length - fragmentId frame * dataPerPacket) := by
  rw [← fragmentData_length, genuine.2.2, chunk_length]

theorem Genuine.byte_eq (genuine : Genuine file dataPerPacket frame) {index : Nat}
    (inside : index < fragmentLength frame) :
    file[fragmentId frame * dataPerPacket + index]? = some (frame (94 + index)) := by
  have short : index < dataPerPacket := by
    have length := genuine.length_eq
    omega
  rw [← fragmentData_get inside, genuine.2.2, chunk_getElem? short]

/-- The next chunk is stored. -/
theorem Stored.accept {fileBuffer : Option Block} (stored : Stored file dataPerPacket count before)
    (positive : 0 < dataPerPacket) (more : count * dataPerPacket < file.length)
    (small : file.length < 2 ^ 64) (genuine : Genuine file dataPerPacket frame)
    (expected : fragmentId frame = count)
    (copied : Copied before.netboot.fileBytesTransferred (fragmentLength frame)
      (fun index => frame (94 + index)) before.netboot.fileBuffer fileBuffer) :
    Stored file dataPerPacket (count + 1) (before.accept frame fileBuffer) := by
  have received : before.netboot.fileBytesTransferred = count * dataPerPacket := by
    rw [stored.bytes, Nat.min_eq_left more.le]
  have length : fragmentLength frame = min dataPerPacket (file.length - count * dataPerPacket) := by
    rw [genuine.length_eq, expected]
  have total : before.netboot.fileBytesTransferred + fragmentLength frame =
      min ((count + 1) * dataPerPacket) file.length := by
    rw [received, length, Nat.add_one_mul]
    omega
  have bytes : (before.accept frame fileBuffer).netboot.fileBytesTransferred =
      before.netboot.fileBytesTransferred + fragmentLength frame := by
    rw [Progress.accept_bytes, Nat.mod_eq_of_lt (by omega)]
  have countable : count + 1 < 2 ^ 64 := by
    have enough : count ≤ count * dataPerPacket := Nat.le_mul_of_pos_right count positive
    omega
  refine ⟨?_, bytes.trans total, ?_⟩
  · rw [Progress.accept_packets, stored.packets, Nat.mod_eq_of_lt countable]
  · rw [bytes]
    intro index inside
    by_cases old : index < before.netboot.fileBytesTransferred
    · rw [← stored.held index old]
      exact copied.before old
    · obtain ⟨offset, rfl⟩ := Nat.exists_eq_add_of_le (Nat.not_lt.mp old)
      have within : offset < fragmentLength frame := by omega
      have byte := genuine.byte_eq within
      rw [expected, ← received] at byte
      rw [byte]
      exact copied.inside within

theorem Genuine.advance_eq (genuine : Genuine file dataPerPacket frame) :
    advance count frame = if fragmentId frame = count then count + 1 else count := by
  simp [advance, genuine.1]

theorem Unrelated.other (unrelated : Unrelated frame) :
    messageCmd frame ≠ cmdFileFragment ∧ messageCmd frame ≠ cmdFileSendInit := by
  rcases unrelated with cmd | cmd | cmd
  all_goals
    rw [cmd]
    decide

theorem Unrelated.advance_eq (unrelated : Unrelated frame) : advance count frame = count :=
  if_neg fun both => unrelated.other.1 both.1

/-- A message of the transfer, or one that does not concern it. -/
def Expected (file : List UInt8) (dataPerPacket : Nat) (frame : Memory) : Prop :=
  Genuine file dataPerPacket frame ∨ Unrelated frame

theorem Expected.notInit (expected : Expected file dataPerPacket frame) :
    messageCmd frame ≠ cmdFileSendInit := by
  rcases expected with genuine | unrelated
  · exact not_init_of_fragment genuine.1
  · exact unrelated.other.2

theorem Expected.genuine (expected : Expected file dataPerPacket frame)
    (isFragment : messageCmd frame = cmdFileFragment) : Genuine file dataPerPacket frame :=
  expected.resolve_right fun unrelated => unrelated.other.1 isFragment

/-- A fragment of the file is stored if it is the next one. -/
theorem Receiving.taken (receiving : Receiving file dataPerPacket info count before)
    (positive : 0 < dataPerPacket) (small : file.length < 2 ^ 64)
    (genuine : Genuine file dataPerPacket frame) (taken : Taken frame before after) :
    after.netboot.state = .fileTransfer ∧ after.netboot.fileInfo = some info ∧
      after.fileWrites = before.fileWrites ∧
      Stored file dataPerPacket (advance count frame) after := by
  have stored := receiving.stored
  rw [genuine.advance_eq]
  cases taken with
  | stale other =>
      rw [if_neg fun same => other (same.trans stored.packets.symm)]
      exact ⟨receiving.state, receiving.hasInfo, rfl, stored.packets, stored.bytes, stored.held⟩
  | next expected copied =>
      have same : fragmentId frame = count := expected.trans stored.packets
      have later := stored.accept positive receiving.more small genuine same copied
      rw [if_pos same]
      exact ⟨receiving.state, receiving.hasInfo, rfl, later.packets, later.bytes, later.held⟩

/-- With all bytes received, all fragments have been accepted. -/
theorem Receiving.complete (receiving : Receiving file dataPerPacket info count before)
    (positive : 0 < dataPerPacket)
    (stored : Stored file dataPerPacket (advance count frame) after)
    (all : after.netboot.fileBytesTransferred = file.length) :
    advance count frame = chunkCount file dataPerPacket := by
  have enough : ¬ advance count frame < chunkCount file dataPerPacket := by
    rw [lt_chunkCount_iff positive]
    have bytes := stored.bytes.symm.trans all
    omega
  have below : count < chunkCount file dataPerPacket :=
    (lt_chunkCount_iff positive).mpr receiving.more
  have step : advance count frame ≤ count + 1 := by
    unfold advance
    split <;> omega
  omega

/-- **One message during the transfer of a file.** The transfer goes on, or it was the last
missing fragment and the file has been written. -/
theorem Receiving.step (receiving : Receiving file dataPerPacket info count before)
    (positive : 0 < dataPerPacket) (size : info.fileSize = file.length)
    (message : Expected file dataPerPacket frame) (outcome : Outcome fw frame before after) :
    (Receiving file dataPerPacket info (advance count frame) after ∧
        after.fileWrites = before.fileWrites) ∨
      Received file dataPerPacket before.fileWrites (advance count frame) after := by
  have small : file.length < 2 ^ 64 := size ▸ Memory.load64_lt _ _
  cases outcome with
  | quiet _ notFragment =>
      have unrelated : Unrelated frame :=
        message.resolve_left fun genuine => notFragment ⟨receiving.state, genuine.1⟩
      rw [unrelated.advance_eq]
      exact .inl ⟨receiving, rfl⟩
  | fragment _ isFragment known taken more =>
      obtain ⟨state, hasInfo, writes, stored⟩ :=
        receiving.taken positive small (message.genuine isFragment) taken
      obtain rfl : info = _ := Option.some.inj (receiving.hasInfo.symm.trans known)
      rw [stored.bytes, size] at more
      exact .inl ⟨⟨state, hasInfo, stored, by omega⟩, writes⟩
  | last _ isFragment known taken all written =>
      obtain ⟨-, -, writes, stored⟩ :=
        receiving.taken positive small (message.genuine isFragment) taken
      obtain rfl : info = _ := Option.some.inj (receiving.hasInfo.symm.trans known)
      refine .inr ⟨receiving.complete positive stored (all.trans size), rfl, _,
        congrArg (· ++ [_]) writes, ?_⟩
      exact written.eq_of_held size.symm fun index inside => stored.held index (all ▸ inside)
  | init _ isInit => exact absurd isInit message.notInit

theorem Received.not_transfer (received : Received file dataPerPacket earlier count before) :
    before.netboot.state ≠ .fileTransfer := by
  rw [received.idle]
  decide

/-- An idle receiver stays idle. -/
theorem Received.step (received : Received file dataPerPacket earlier count before)
    (message : Expected file dataPerPacket frame) (outcome : Outcome fw frame before after) :
    Received file dataPerPacket earlier (advance count frame) after := by
  have same : advance count frame = count := by
    rcases message with genuine | unrelated
    · rw [genuine.advance_eq, if_neg (Nat.ne_of_lt (received.all ▸ genuine.2.1))]
    · exact unrelated.advance_eq
  rw [same]
  cases outcome with
  | quiet => exact received
  | fragment transfer => exact absurd transfer received.not_transfer
  | last transfer => exact absurd transfer received.not_transfer
  | init _ isInit => exact absurd isInit message.notInit

/-- The transfer of a file after a number of accepted fragments. -/
def Status (file : List UInt8) (dataPerPacket : Nat) (info : Block) (earlier : List FileWrite)
    (count : Nat) (transfer : Progress) : Prop :=
  (Receiving file dataPerPacket info count transfer ∧ transfer.fileWrites = earlier) ∨
    Received file dataPerPacket earlier count transfer

theorem Status.step (status : Status file dataPerPacket info earlier count before)
    (positive : 0 < dataPerPacket) (size : info.fileSize = file.length)
    (message : Expected file dataPerPacket frame) (outcome : Outcome fw frame before after) :
    Status file dataPerPacket info earlier (advance count frame) after := by
  rcases status with ⟨receiving, writes⟩ | received
  · rcases receiving.step positive size message outcome with ⟨still, same⟩ | done
    · exact .inl ⟨still, same.trans writes⟩
    · exact .inr (writes ▸ done)
  · exact .inr (received.step message outcome)

/-- **A list of messages** takes the transfer from one number of accepted fragments to
another. -/
theorem Status.run {s t : NetState} {frames : List Memory}
    (status : Status file dataPerPacket info earlier count s.progress)
    (positive : 0 < dataPerPacket) (size : info.fileSize = file.length)
    (messages : ∀ frame ∈ frames, Expected file dataPerPacket frame)
    (run : receiveMessages fw frames s = .ok () t) :
    Status file dataPerPacket info earlier (frames.foldl advance count) t.progress := by
  induction frames generalizing s count with
  | nil =>
      cases run
      exact status
  | cons frame frames ih =>
      obtain ⟨⟨⟩, middle, first, rest⟩ := bind_eq_ok.mp run
      have next := status.step positive size (messages frame List.mem_cons_self)
        (receiveMessage_outcome first)
      exact ih next (fun other member => messages other (List.mem_cons_of_mem _ member)) rest

/-! ### The announcement -/

/-- Outside of a transfer both counters are zero. -/
def IdleReset (transfer : Progress) : Prop :=
  transfer.netboot.state ≠ .fileTransfer → transfer.netboot.fileBytesTransferred = 0 ∧
    transfer.netboot.filePacketsTransferred = 0

theorem reached_idleReset {allowed : NetState → Memory → Prop} {s : NetState}
    (reached : Reached fw allowed s) : IdleReset s.progress := by
  refine Reached.invariant (fun _ => ⟨rfl, rfl⟩) ?_ reached
  intro s frame after good _ outcome
  cases outcome with
  | quiet => exact good
  | fragment transfer _ _ taken =>
      cases taken with
      | stale => exact good
      | next => exact fun other => absurd transfer other
  | last => exact fun _ => ⟨rfl, rfl⟩
  | init => exact fun other => absurd rfl other

/-- A transfer that is going on has a buffer of the size of the file. -/
def HasRoom (file : List UInt8) (transfer : Progress) : Prop :=
  transfer.netboot.state = .fileTransfer →
    ∃ buffer, transfer.netboot.fileBuffer = some buffer ∧ buffer.size = file.length

theorem Announces.pathReady {size : Nat} {old : Option Block} {path : List UInt8}
    (announces : Announces frame file dataPerPacket path) (ends : charactersEnd path 0 = true)
    (whole : 32 + path.length < size) (bound : path.length < 2 ^ 64)
    (copied : Copied 0 size (fun index => frame (78 + index)) old (some info)) :
    PathReady info := by
  have bytes : ∀ index, index ≤ path.length → info.path index = frame (110 + index) := by
    intro index inside
    have byte := Option.some.inj (copied.inside (show 32 + index < size by omega))
    rwa [Nat.zero_add, ← Nat.add_assoc] at byte
  have holds : HoldsString info.path 0 path := by
    refine ⟨fun index inside => ?_, ?_, announces.holds.nonzero⟩
    · rw [Nat.zero_add, bytes index inside.le, announces.holds.bytes index inside]
    · rw [Nat.zero_add, bytes _ le_rfl, announces.holds.ended]
  have measured : strlen info.path = some path.length := by
    rw [strlen, strlenLoop_eq holds bound, Nat.zero_add]
  obtain ⟨units, converted⟩ := Option.isSome_iff_exists.mp
    (ucs2Loop_isSome holds ends (Nat.lt_succ_self _) (Nat.succ_pos _))
  exact ⟨path.length, units, measured, converted⟩

/-- **The announcement of a file** starts its transfer with nothing received. -/
theorem Announces.status {path : List UInt8} (announces : Announces frame file dataPerPacket path)
    (nonempty : file ≠ []) (reset : IdleReset before)
    (idle : before.netboot.state ≠ .fileTransfer) (outcome : Outcome fw frame before after) :
    ∃ info, info.fileSize = file.length ∧ (charactersEnd path 0 = true → PathReady info) ∧
      Status file dataPerPacket info before.fileWrites 0 after ∧
      (fw.Grants → HasRoom file after) ∧
      ∀ index, index < messageLength frame - 16 → info.bytes index = frame (78 + index) := by
  have long := announces.long
  have length : messageLength frame < 2 ^ 64 := Memory.loadLE_lt _ 8 _
  cases outcome with
  | quiet notInit => exact absurd announces.isInit notInit
  | fragment _ isFragment => exact absurd announces.isInit (not_init_of_fragment isFragment)
  | last _ isFragment => exact absurd announces.isInit (not_init_of_fragment isFragment)
  | init asked isInit copied =>
      rename_i info old
      rw [announcedSize_eq (by omega)] at copied
      have size : info.fileSize = file.length :=
        (copied.fileSize_eq (by omega)).trans announces.fileSize
      obtain ⟨bytes, packets⟩ := reset idle
      refine ⟨info, size, fun ends => ?_, .inl ⟨⟨rfl, rfl, ⟨packets, ?_, ?_⟩, ?_⟩, rfl⟩, ?_, ?_⟩
      · exact announces.pathReady ends (by omega) (by omega) copied
      · rw [Nat.zero_mul, Nat.zero_min]
        exact bytes
      · intro index inside
        rw [Progress.acknowledge_netboot, Progress.announce_bytes, bytes] at inside
        exact absurd inside (Nat.not_lt_zero index)
      · rw [Nat.zero_mul]
        exact List.length_pos_iff.mpr nonempty
      · intro grants _
        obtain ⟨buffer, hasBuffer, granted⟩ :=
          NetFirmware.poolBlock_granted before.netboot.fileBuffer
            (grants.allocatePool asked info.fileSize)
        exact ⟨buffer, hasBuffer, granted.trans size⟩
      · intro index inside
        have byte := Option.some.inj (copied.inside inside)
        rwa [Nat.zero_add] at byte

/-- A message is handled to its end while the firmware refuses nothing, unless it is the last
fragment and the path of the file cannot be converted. -/
theorem Status.returns {s : NetState} (grants : fw.Grants)
    (status : Status file dataPerPacket info earlier count s.progress)
    (positive : 0 < dataPerPacket) (size : info.fileSize = file.length)
    (room : HasRoom file s.progress)
    (message : Expected file dataPerPacket frame)
    (ready : advance count frame = chunkCount file dataPerPacket → PathReady info) :
    ∃ t, receiveMessage fw frame s = .ok () t := by
  refine receiveMessage_returns grants (message.imp_left fun genuine => genuine.1) ?_
  intro transfer isFragment
  rcases status with ⟨receiving, -⟩ | received
  · have genuine := message.genuine isFragment
    obtain ⟨buffer, hasBuffer, roomy⟩ := room transfer
    refine ⟨info, buffer, receiving.hasInfo, hasBuffer, fun expected => ?_, fun after taken all => ?_⟩
    · have bytes : s.netboot.fileBytesTransferred = min (count * dataPerPacket) file.length :=
        receiving.stored.bytes
      have packets : s.netboot.filePacketsTransferred = count := receiving.stored.packets
      rw [roomy, bytes, genuine.length_eq, expected, packets]
      omega
    · have small : file.length < 2 ^ 64 := size ▸ Memory.load64_lt _ _
      obtain ⟨-, -, -, stored⟩ := receiving.taken positive small genuine taken
      exact ready (receiving.complete positive stored (all.trans size))
  · exact absurd transfer received.not_transfer

theorem HasRoom.step (room : HasRoom file before) (message : Expected file dataPerPacket frame)
    (outcome : Outcome fw frame before after) : HasRoom file after := by
  cases outcome with
  | quiet => exact room
  | fragment transfer _ _ taken =>
      obtain ⟨buffer, hasBuffer, size⟩ := room transfer
      obtain ⟨later, hasLater, same⟩ := taken.exists_buffer hasBuffer
      exact fun _ => ⟨later, hasLater, same.trans size⟩
  | last => exact nofun
  | init _ isInit => exact absurd isInit message.notInit

/-- Once every fragment has been accepted, the number of accepted fragments stays. -/
theorem foldl_advance_complete {frames : List Memory}
    (messages : ∀ frame ∈ frames, Expected file dataPerPacket frame) :
    frames.foldl advance (chunkCount file dataPerPacket) = chunkCount file dataPerPacket := by
  induction frames with
  | nil => rfl
  | cons frame frames ih =>
      have same : advance (chunkCount file dataPerPacket) frame = chunkCount file dataPerPacket := by
        rcases messages frame List.mem_cons_self with genuine | unrelated
        · rw [genuine.advance_eq, if_neg (Nat.ne_of_lt genuine.2.1)]
        · exact unrelated.advance_eq
      rw [List.foldl_cons, same]
      exact ih fun other member => messages other (List.mem_cons_of_mem _ member)

/-- A list of messages is handled to its end, unless the last fragment is among them and the
path of the file cannot be converted. -/
theorem Status.returns_all {s : NetState} {frames : List Memory} (grants : fw.Grants)
    (status : Status file dataPerPacket info earlier count s.progress)
    (positive : 0 < dataPerPacket) (size : info.fileSize = file.length)
    (room : HasRoom file s.progress)
    (messages : ∀ frame ∈ frames, Expected file dataPerPacket frame)
    (ready : frames.foldl advance count = chunkCount file dataPerPacket → PathReady info) :
    ∃ t, receiveMessages fw frames s = .ok () t ∧ HasRoom file t.progress := by
  induction frames generalizing s count with
  | nil => exact ⟨s, rfl, room⟩
  | cons frame frames ih =>
      have later : ∀ other ∈ frames, Expected file dataPerPacket other :=
        fun other member => messages other (List.mem_cons_of_mem _ member)
      have message := messages frame List.mem_cons_self
      obtain ⟨middle, first⟩ := status.returns grants positive size room message fun complete =>
        ready (by rw [List.foldl_cons, complete, foldl_advance_complete later])
      have outcome := receiveMessage_outcome first
      obtain ⟨t, rest, roomy⟩ := ih (status.step positive size message outcome)
        (room.step message outcome) later ready
      exact ⟨t, (bind_of_ok first).trans rest, roomy⟩

/-- An idle receiver handles an announcement to its end. -/
theorem receiveMessage_init {s : NetState} (grants : fw.Grants)
    (idle : s.netboot.state ≠ .fileTransfer) (isInit : messageCmd frame = cmdFileSendInit) :
    ∃ t, receiveMessage fw frame s = .ok () t := by
  obtain ⟨⟨⟩, t, run⟩ := receiveInit_returns grants ({ s with frame := frame }.withRead 62 4)
  have quiet : receiveTransfer fw 62 { s with frame := frame } = .ok () { s with frame := frame } := by
    rw [receiveTransfer, bind_of_ok (get_run _), if_neg idle]
    rfl
  refine ⟨t, ?_⟩
  rw [receiveMessage, bind_of_ok (modify_run _ _), messageStart, netbootCmdReceive,
    bind_of_ok quiet, bind_of_ok (frameLE_run _ _ _),
    show ({ s with frame := frame } : NetState).frame.loadLE 62 4 = cmdFileSendInit from isInit,
    dispatch_init]
  exact run

theorem Stored.buffer_prefix {buffer : Block} (stored : Stored file dataPerPacket count after)
    (hasBuffer : after.netboot.fileBuffer = some buffer) :
    (List.range after.netboot.fileBytesTransferred).map buffer.bytes <+: file := by
  have same : (List.range after.netboot.fileBytesTransferred).map buffer.bytes =
      file.take after.netboot.fileBytesTransferred := by
    apply List.ext_getElem?
    intro index
    by_cases inside : index < after.netboot.fileBytesTransferred
    · have byte := stored.held index inside
      rw [hasBuffer] at byte
      rw [List.getElem?_take_of_lt inside, ← byte]
      simp [inside]
    · rw [List.getElem?_eq_none (by simpa using inside),
        List.getElem?_eq_none (by rw [List.length_take]; omega)]
  rw [same]
  exact List.take_prefix _ _

end Receiver

/-! ## Whole transfers -/

/-- The announcement of a file and a list of messages are handled to their end. As long as
fragments are missing, the buffer holds the start of the file and nothing has been written.
With the last fragment the file has been written once, and the receiver is idle. -/
def Transfers (fw : NetFirmware) (s : NetState) (init : Memory) (frames : List Memory)
    (file : List UInt8) (dataPerPacket : Nat) : Prop :=
  ∃ t, receiveMessages fw (init :: frames) s = .ok () t ∧
    ((acceptedCount frames < chunkCount file dataPerPacket ∧
        t.netboot.state = .fileTransfer ∧
        t.netboot.filePacketsTransferred = acceptedCount frames ∧
        t.netboot.fileBytesTransferred =
          min (t.netboot.filePacketsTransferred * dataPerPacket) file.length ∧
        (∃ buffer, t.netboot.fileBuffer = some buffer ∧
          (List.range t.netboot.fileBytesTransferred).map buffer.bytes <+: file) ∧
        t.fileWrites = s.fileWrites) ∨
      (acceptedCount frames = chunkCount file dataPerPacket ∧
        t.netboot = ⟨.cmdWait, none, none, 0, 0⟩ ∧
        ∃ write, t.fileWrites = s.fileWrites ++ [write] ∧ write.data = file))

section Whole

variable {fw : NetFirmware} {s : NetState} {init : Memory} {frames : List Memory}
  {file path : List UInt8} {dataPerPacket : Nat}

/-- **A file is transferred whole**, whatever the order of its fragments and whichever are lost
or repeated, if the characters of its path end with it. -/
theorem receiveMessages_transfer (grants : fw.Grants) (reached : Reached fw (fun _ _ => True) s)
    (idle : s.netboot.state ≠ .fileTransfer) (nonempty : file ≠ []) (positive : 0 < dataPerPacket)
    (announces : Announces init file dataPerPacket path) (ends : charactersEnd path 0 = true)
    (messages : ∀ frame ∈ frames, Genuine file dataPerPacket frame ∨ Unrelated frame) :
    Transfers fw s init frames file dataPerPacket := by
  obtain ⟨started, start⟩ := receiveMessage_init grants idle announces.isInit
  have outcome := receiveMessage_outcome start
  obtain ⟨info, size, ready, status, room, -⟩ :=
    announces.status nonempty (reached_idleReset reached) idle outcome
  obtain ⟨t, run, roomy⟩ := status.returns_all grants positive size (room grants) messages
    fun _ => ready ends
  refine ⟨t, (bind_of_ok start).trans run, ?_⟩
  rcases status.run positive size messages run with ⟨receiving, writes⟩ | received
  · obtain ⟨buffer, hasBuffer, -⟩ := roomy receiving.state
    have packets : t.netboot.filePacketsTransferred = acceptedCount frames :=
      receiving.stored.packets
    refine .inl ⟨(lt_chunkCount_iff positive).mpr receiving.more, receiving.state, packets, ?_,
      ⟨buffer, hasBuffer, receiving.stored.buffer_prefix hasBuffer⟩, writes⟩
    rw [packets]
    exact receiving.stored.bytes
  · exact .inr ⟨received.all, received.idle, received.written⟩

end Whole

theorem sampleNetFirmware_grants : sampleNetFirmware.Grants where
  allocatePool _ _ := rfl
  freePool _ := rfl
  loadedImage _ := rfl
  fileSystem _ := rfl
  openVolume _ := rfl
  openFile _ _ := rfl
  writeFile _ := rfl

theorem nonzero_of_singleton {byte : UInt8} (nonzero : byte ≠ 0) :
    ∀ other ∈ [byte], other ≠ 0 := by
  intro other member
  rw [List.mem_singleton.mp member]
  exact nonzero

theorem initFrame_announces :
    Announces (initFrame 3 2 2 [0x61, 0]) [7, 8, 9] 2 [0x61] where
  isInit := by decide +kernel
  fileSize := by decide +kernel
  dataPerPacket := by decide +kernel
  long := by decide +kernel
  holds := ⟨by decide +kernel, by decide +kernel, nonzero_of_singleton (by decide)⟩

theorem fragmentFrame_genuine :
    ∀ frame ∈ [fragmentFrame 1 [9], fragmentFrame 0 [7, 8]], Genuine [7, 8, 9] 2 frame := by
  simp only [List.forall_mem_cons, List.not_mem_nil, false_imp_iff, implies_true, and_true]
  exact ⟨⟨by decide +kernel, by decide +kernel, by decide +kernel⟩,
    ⟨by decide +kernel, by decide +kernel, by decide +kernel⟩⟩

theorem receiveMessages_transfer_sample :
    Transfers sampleNetFirmware sampleNetState (initFrame 3 2 2 [0x61, 0])
      [fragmentFrame 1 [9], fragmentFrame 0 [7, 8]] [7, 8, 9] 2 :=
  receiveMessages_transfer sampleNetFirmware_grants (.start rfl) (by decide) (by decide) (by decide)
    initFrame_announces (by decide) fun frame member => .inl (fragmentFrame_genuine frame member)

/-- **A path that is cut off in the middle of a character stops the receiver.** The path is the
first byte of a character of two bytes and its end. The conversion goes on after the end, into
the pool, and writes more than the path has room for, so the file is not written. -/
theorem cut_off_path_stops :
    ¬ ∀ (fw : NetFirmware) (s : NetState) (init : Memory) (frames : List Memory)
        (file path : List UInt8) (dataPerPacket : Nat), fw.Grants →
      Reached fw (fun _ _ => True) s → s.netboot.state ≠ .fileTransfer → file ≠ [] →
      0 < dataPerPacket → Announces init file dataPerPacket path →
      (∀ frame ∈ frames, Genuine file dataPerPacket frame ∨ Unrelated frame) →
      Transfers fw s init frames file dataPerPacket := by
  intro always
  have announces : Announces (initFrame 1 1 1 [0xC3, 0]) [7] 1 [0xC3] :=
    ⟨by decide +kernel, by decide +kernel, by decide +kernel, by decide +kernel,
      by decide +kernel, by decide +kernel, nonzero_of_singleton (by decide)⟩
  have genuine : Genuine [7] 1 (fragmentFrame 0 [7]) :=
    ⟨by decide +kernel, by decide +kernel, by decide +kernel⟩
  obtain ⟨t, run, -⟩ := always sampleNetFirmware sampleNetState (initFrame 1 1 1 [0xC3, 0])
    [fragmentFrame 0 [7]] [7] [0xC3] 1 sampleNetFirmware_grants (.start rfl) (by decide) (by decide)
    (by decide) announces fun frame member => .inl (List.mem_singleton.mp member ▸ genuine)
  have stopped : returned (receiveMessages sampleNetFirmware
      [initFrame 1 1 1 [0xC3, 0], fragmentFrame 0 [7]] sampleNetState) = false := by decide +kernel
  rw [run] at stopped
  exact nomatch stopped

end VineyardLoader
