import VineyardLoader.Net.Steps

/-!
# Transfers over whole runs

The states that a sequence of messages can reach from start-up, and what the file buffer
holds in them.

An announcement keeps the counters of the transfer that it replaces. So the buffer holds
what the fragments since the announcement supplied as long as no announcement arrives in the
middle of a transfer (`reached_fresh`), and it does not otherwise
(`second_announcement_keeps_counters`).
-/

set_option autoImplicit false

namespace VineyardLoader

variable {fw : NetFirmware}

/-! ## Reached states -/

/-- The record of the transfer at start-up. -/
def Progress.initial : Progress := ⟨⟨.preinit, none, none, 0, 0⟩, [], [], [], []⟩

/-- The states that messages reach from start-up, with a condition on each message and on the
state it arrives in. -/
inductive Reached (fw : NetFirmware) (allowed : NetState → Memory → Prop) : NetState → Prop
  | start {s : NetState} (initial : s.progress = .initial) : Reached fw allowed s
  | message {s t : NetState} {frame : Memory} (earlier : Reached fw allowed s)
      (condition : allowed s frame) (run : receiveMessage fw frame s = .ok () t) :
      Reached fw allowed t

/-- What holds at start-up and is kept by the outcome of every message that may arrive, holds
in every state reached. -/
theorem Reached.invariant {allowed : NetState → Memory → Prop} {good : Progress → Prop}
    (initially : good .initial)
    (step : ∀ {s : NetState} {frame : Memory} {after : Progress}, good s.progress →
      allowed s frame → Outcome fw frame s.progress after → good after) :
    ∀ {s : NetState}, Reached fw allowed s → good s.progress := by
  intro s reached
  induction reached with
  | start initial => exact initial ▸ initially
  | message _ condition run ih => exact step ih condition (receiveMessage_outcome run)

/-- A list of messages. -/
def receiveMessages (fw : NetFirmware) (frames : List Memory) : Net Unit :=
  frames.forM (receiveMessage fw)

/-- A condition on each message of a list and on the state it arrives in. -/
def Along (fw : NetFirmware) (allowed : NetState → Memory → Prop) :
    NetState → List Memory → Prop
  | _, [] => True
  | s, frame :: frames =>
      allowed s frame ∧ Along fw allowed (finalState (receiveMessage fw frame s)) frames

instance Along.decidable {allowed : NetState → Memory → Prop}
    [∀ s frame, Decidable (allowed s frame)] :
    ∀ s frames, Decidable (Along fw allowed s frames)
  | _, [] => isTrue trivial
  | s, frame :: frames =>
      @instDecidableAnd _ _ _ (Along.decidable (finalState (receiveMessage fw frame s)) frames)

/-- A list of messages that meet the condition and are handled to their end reaches a state. -/
theorem Reached.along {allowed : NetState → Memory → Prop} {s t : NetState} {frames : List Memory}
    (reached : Reached fw allowed s) (conditions : Along fw allowed s frames)
    (run : receiveMessages fw frames s = .ok () t) : Reached fw allowed t := by
  induction frames generalizing s with
  | nil =>
      cases run
      exact reached
  | cons frame frames ih =>
      obtain ⟨⟨⟩, middle, first, rest⟩ := bind_eq_ok.mp run
      obtain ⟨condition, conditions⟩ := conditions
      rw [first] at conditions
      exact ih (reached.message condition first) conditions rest

/-- Any list of messages that is handled to its end reaches a state. -/
theorem Reached.messages {s t : NetState} {frames : List Memory}
    (reached : Reached fw (fun _ _ => True) s) (run : receiveMessages fw frames s = .ok () t) :
    Reached fw (fun _ _ => True) t := by
  induction frames generalizing s with
  | nil =>
      cases run
      exact reached
  | cons frame frames ih =>
      obtain ⟨⟨⟩, middle, first, rest⟩ := bind_eq_ok.mp run
      exact ih (reached.message trivial first) rest

/-! ## Sample messages -/

/-- A frame with a message. -/
def messageFrame (cmd : Nat) (data : List UInt8) : Memory :=
  ((Memory.storeLE (fun _ => 0) 62 4 cmd).store64 70 (16 + data.length)).overwrite 78 data.length
    fun index => data.getD index 0

/-- The bytes of a 64-bit number. -/
def bytes64 (value : Nat) : List UInt8 :=
  (List.range 8).map fun index => UInt8.ofNat (value / 256 ^ index)

/-- A frame that announces a file. -/
def initFrame (fileSize dataPerPacket packets : Nat) (path : List UInt8) : Memory :=
  messageFrame cmdFileSendInit
    (bytes64 fileSize ++ bytes64 dataPerPacket ++ bytes64 packets ++ bytes64 path.length ++ path)

/-- A frame with a fragment. -/
def fragmentFrame (fragmentId : Nat) (data : List UInt8) : Memory :=
  messageFrame cmdFileFragment (bytes64 fragmentId ++ bytes64 data.length ++ data)

/-- A firmware that refuses nothing and hands out memory that is not zero. -/
def sampleNetFirmware : NetFirmware where
  allocatePool _ _ := some (0x100000, fun _ => 0xAA)
  refusalKeeps _ _ := true
  freePool _ := true
  transmit _ _ _ := true
  loadedImage _ := true
  fileSystem _ := true
  openVolume _ := true
  openFile _ _ := true
  writeFile _ := true
  getVariable _ := false

/-- Start-up with one transmit buffer. -/
def sampleNetState : NetState where
  frame _ := 0
  netboot := ⟨.preinit, none, none, 0, 0⟩
  llMacAddr _ := 2
  ip6LlAddr _ := 0xFE
  ip6SnmAddr _ := 0xFF
  remoteMacAddr _ := 4
  remoteIp6Addr _ := 0xFC
  netPollContinue := true
  netStopAdvertising := false
  mem _ := 0
  ethBufferPhys := 0x200000
  ethBufpool := 0x200000
  ethBufpoolAvail := 1
  volume _ := none
  frameReads := []
  pathReads := []
  infoLengths := []
  copies := []
  accepted := []
  acks := []
  fileWrites := []
  transmissions := []

/-- The sample firmware's state after a list of messages from start-up. -/
def sampleAfter (frames : List Memory) : NetState :=
  finalState (receiveMessages sampleNetFirmware frames sampleNetState)

theorem sampleAfter_reached {frames : List Memory}
    (runs : returned (receiveMessages sampleNetFirmware frames sampleNetState) = true) :
    Reached sampleNetFirmware (fun _ _ => True) (sampleAfter frames) :=
  (Reached.start rfl).messages (ok_of_returned runs)

/-! ## The fragments of the transfer -/

/-- The transfer holds the fragments that were accepted since the announcement: they are
numbered in order, the counters count them, and the buffer holds their bytes. -/
structure Fresh (transfer : Progress) : Prop where
  numbered : transfer.accepted.map Accepted.fragmentId =
    List.range transfer.netboot.filePacketsTransferred
  counted : transfer.netboot.fileBytesTransferred = (suppliedBytes transfer.accepted).length
  held : ∀ index, index < transfer.netboot.fileBytesTransferred →
    (transfer.netboot.fileBuffer.map fun buffer => buffer.bytes index) =
      (suppliedBytes transfer.accepted)[index]?

/-- An announcement arrives only while no fragment has been accepted, and the number of
accepted fragments stays in 64 bits. -/
def FreshStep (s : NetState) (frame : Memory) : Prop :=
  (messageCmd frame = cmdFileSendInit → s.netboot.filePacketsTransferred = 0) ∧
    (s.netboot.state = .fileTransfer → messageCmd frame = cmdFileFragment →
      fragmentId frame = s.netboot.filePacketsTransferred →
        s.netboot.filePacketsTransferred + 1 < 2 ^ 64)

instance (s : NetState) (frame : Memory) : Decidable (FreshStep s frame) :=
  inferInstanceAs (Decidable (_ ∧ _))

/-- What carries the freshness of the transfer from message to message. -/
structure FreshInvariant (transfer : Progress) : Prop where
  idle : transfer.netboot.state ≠ .fileTransfer →
    transfer.netboot.fileBytesTransferred = 0 ∧ transfer.netboot.filePacketsTransferred = 0
  fresh : transfer.netboot.state = .fileTransfer → Fresh transfer
  small : transfer.netboot.fileBytesTransferred < 2 ^ 64
  limited : ∀ buffer, transfer.netboot.fileBuffer = some buffer → buffer.size < 2 ^ 64
  written : ∀ write ∈ transfer.fileWrites, write.data = write.supplied

theorem FreshInvariant.initial : FreshInvariant .initial where
  idle _ := ⟨rfl, rfl⟩
  fresh transfer := nomatch transfer
  small := by decide
  limited _ known := nomatch known
  written _ member := nomatch member

theorem suppliedBytes_append (accepted : List Accepted) (last : Accepted) :
    suppliedBytes (accepted ++ [last]) = suppliedBytes accepted ++ last.data := by
  simp [suppliedBytes]

theorem fragmentData_length (frame : Memory) :
    (fragmentData frame).length = fragmentLength frame := by
  simp [fragmentData]

theorem fragmentData_get {frame : Memory} {index : Nat} (inside : index < fragmentLength frame) :
    (fragmentData frame)[index]? = some (frame (94 + index)) := by
  simp [fragmentData, inside]

section Copy

variable {start size : Nat} {source : Memory} {old new : Option Block}

theorem Copied.before (copied : Copied start size source old new) {index : Nat}
    (earlier : index < start) :
    (new.map fun block => block.bytes index) = old.map fun block => block.bytes index := by
  cases copied with
  | nothing => rfl
  | bytes => exact congrArg some (Memory.overwrite_outside _ (.inl earlier))

theorem Copied.inside (copied : Copied start size source old new) {index : Nat}
    (inside : index < size) :
    (new.map fun block => block.bytes (start + index)) = some (source index) := by
  cases copied with
  | nothing empty => exact absurd inside (by omega)
  | bytes => exact congrArg some (Memory.overwrite_offset _ inside)

/-- A copy leaves the size of the block as it was. -/
theorem Copied.size_eq (copied : Copied start size source old new) {block : Block}
    (known : new = some block) : ∃ earlier, old = some earlier ∧ earlier.size = block.size := by
  cases copied with
  | nothing => exact ⟨block, known, rfl⟩
  | bytes =>
      cases known
      exact ⟨_, rfl, rfl⟩

theorem Copied.exists_block (copied : Copied start size source old new) {block : Block}
    (known : old = some block) : ∃ later, new = some later ∧ later.size = block.size := by
  cases copied with
  | nothing => exact ⟨block, known, rfl⟩
  | bytes =>
      cases known
      exact ⟨_, rfl, rfl⟩

theorem Copied.allowed (copied : Copied start size source old new) :
    size = 0 ∨ ∃ block, old = some block ∧ start + size ≤ block.size := by
  cases copied with
  | nothing empty => exact .inl empty
  | bytes _ inside => exact .inr ⟨_, rfl, inside⟩

/-- A copy into a block that is addressed with 64 bits ends within 64 bits. -/
theorem Copied.end_lt (copied : Copied start size source old new) (small : start < 2 ^ 64)
    (limited : ∀ block, old = some block → block.size < 2 ^ 64) : start + size < 2 ^ 64 := by
  cases copied with
  | nothing empty => omega
  | bytes _ inside => exact Nat.lt_of_le_of_lt inside (limited _ rfl)

/-- The size of the file, if the copy of the file info holds it. -/
theorem Copied.fileSize_eq {frame : Memory} {info : Block}
    (copied : Copied 0 size (fun index => frame (78 + index)) old (some info)) (long : 8 ≤ size) :
    info.fileSize = frame.loadLE 78 8 := by
  have shifted : Memory.loadLE (fun index => frame (78 + index)) 0 8 = frame.loadLE 78 8 := rfl
  rw [Block.fileSize, Memory.load64, ← shifted]
  apply Memory.loadLE_congr
  intro index bound
  have byte := Option.some.inj (copied.inside (Nat.lt_of_lt_of_le bound long))
  rw [Nat.zero_add] at byte ⊢
  exact byte

end Copy

theorem announcedSize_eq {frame : Memory} (long : 16 ≤ messageLength frame) :
    (messageLength frame + 2 ^ 64 - 16) % 2 ^ 64 = messageLength frame - 16 := by
  have small : messageLength frame < 2 ^ 64 := Memory.loadLE_lt _ 8 _
  rw [show messageLength frame + 2 ^ 64 - 16 = messageLength frame - 16 + 2 ^ 64 by omega,
    Nat.add_mod_right, Nat.mod_eq_of_lt (by omega)]

/-- A new block has the size asked for, and a refusal leaves the old one. -/
theorem NetFirmware.poolBlock_cases {asked : NetState} {size : Nat} {old : Option Block}
    {block : Block} (known : fw.poolBlock asked size old = some block) :
    block.size = size ∨ old = some block := by
  unfold NetFirmware.poolBlock at known
  cases answer : fw.allocatePool asked size with
  | none =>
      rw [answer, Option.map_none, Option.none_or, NetFirmware.refused] at known
      split at known
      · exact .inr known
      · cases known
  | some granted =>
      rw [answer] at known
      cases known
      exact .inl rfl

theorem NetFirmware.poolBlock_granted {asked : NetState} {size : Nat} (old : Option Block)
    (grants : (fw.allocatePool asked size).isSome) :
    ∃ block, fw.poolBlock asked size old = some block ∧ block.size = size := by
  obtain ⟨granted, answer⟩ := Option.isSome_iff_exists.mp grants
  exact ⟨⟨granted.1, size, granted.2⟩, by rw [NetFirmware.poolBlock, answer]; rfl, rfl⟩

/-- What is written is what the buffer holds. -/
theorem Written.eq_of_held {info : Block} {fileBuffer : Option Block} {data contents : List UInt8}
    (written : Written info fileBuffer data) (length : contents.length = info.fileSize)
    (held : ∀ index, index < info.fileSize →
      (fileBuffer.map fun buffer => buffer.bytes index) = contents[index]?) :
    data = contents := by
  rcases written with ⟨empty, nothing⟩ | ⟨buffer, known, bytes⟩
  · rw [nothing, List.eq_nil_of_length_eq_zero (length.trans empty)]
  · rw [bytes]
    apply List.ext_getElem?
    intro index
    by_cases inside : index < info.fileSize
    · rw [← held index inside, known]
      simp [inside]
    · rw [List.getElem?_eq_none (by simpa using inside), List.getElem?_eq_none (by omega)]

section Fresh

variable {transfer : Progress}

theorem Fresh.bytes_eq_zero (fresh : Fresh transfer) (nothing : transfer.accepted = []) :
    transfer.netboot.fileBytesTransferred = 0 := by
  rw [fresh.counted, nothing]
  rfl

theorem Fresh.packets_eq_zero (fresh : Fresh transfer) (nothing : transfer.accepted = []) :
    transfer.netboot.filePacketsTransferred = 0 := by
  have numbered := fresh.numbered
  rw [nothing] at numbered
  exact List.range_eq_nil.mp numbered.symm

/-- The next fragment in order keeps the transfer fresh. -/
theorem Fresh.accept {frame : Memory} {fileBuffer : Option Block}
    (fresh : Fresh transfer)
    (expected : fragmentId frame = transfer.netboot.filePacketsTransferred)
    (copied : Copied transfer.netboot.fileBytesTransferred (fragmentLength frame)
      (fun index => frame (94 + index)) transfer.netboot.fileBuffer fileBuffer)
    (countable : transfer.netboot.filePacketsTransferred + 1 < 2 ^ 64)
    (room : transfer.netboot.fileBytesTransferred + fragmentLength frame < 2 ^ 64) :
    Fresh (transfer.accept frame fileBuffer) := by
  have bytes : (transfer.accept frame fileBuffer).netboot.fileBytesTransferred =
      transfer.netboot.fileBytesTransferred + fragmentLength frame := by
    rw [Progress.accept_bytes, Nat.mod_eq_of_lt room]
  have packets : (transfer.accept frame fileBuffer).netboot.filePacketsTransferred =
      transfer.netboot.filePacketsTransferred + 1 := by
    rw [Progress.accept_packets, Nat.mod_eq_of_lt countable]
  have supplied : suppliedBytes (transfer.accept frame fileBuffer).accepted =
      suppliedBytes transfer.accepted ++ fragmentData frame := by
    rw [Progress.accept_accepted, suppliedBytes_append]
  refine ⟨?_, ?_, ?_⟩
  · rw [packets, List.range_succ, ← fresh.numbered, ← expected]
    exact List.map_append
  · rw [bytes, supplied, List.length_append, fragmentData_length, fresh.counted]
  · rw [bytes, supplied]
    intro index inside
    by_cases earlier : index < transfer.netboot.fileBytesTransferred
    · rw [List.getElem?_append_left (fresh.counted ▸ earlier), ← fresh.held index earlier]
      exact copied.before earlier
    · obtain ⟨offset, rfl⟩ := Nat.exists_eq_add_of_le (Nat.not_lt.mp earlier)
      have within : offset < fragmentLength frame := by omega
      rw [List.getElem?_append_right (fresh.counted ▸ Nat.le_add_right _ _), ← fresh.counted,
        Nat.add_sub_cancel_left, fragmentData_get within]
      exact copied.inside within

/-- A transfer that has all its bytes writes what was supplied. -/
theorem Fresh.written {info : Block} {data : List UInt8} (fresh : Fresh transfer)
    (all : transfer.netboot.fileBytesTransferred = info.fileSize)
    (written : Written info transfer.netboot.fileBuffer data) :
    data = suppliedBytes transfer.accepted :=
  written.eq_of_held (fresh.counted.symm.trans all) fun index inside =>
    fresh.held index (all ▸ inside)

end Fresh

theorem Outcome.announced {frame : Memory} {before after : Progress}
    (outcome : Outcome fw frame before after) (isInit : messageCmd frame = cmdFileSendInit) :
    after.netboot.state = .fileTransfer ∧ after.accepted = [] := by
  cases outcome with
  | quiet notInit => exact absurd isInit notInit
  | fragment _ isFragment => exact absurd isInit (not_init_of_fragment isFragment)
  | last _ isFragment => exact absurd isInit (not_init_of_fragment isFragment)
  | init => exact ⟨rfl, rfl⟩

theorem FreshInvariant.taken {s : NetState} {frame : Memory} {after : Progress}
    (good : FreshInvariant s.progress) (condition : FreshStep s frame)
    (transfer : s.progress.netboot.state = .fileTransfer)
    (isFragment : messageCmd frame = cmdFileFragment) (taken : Taken frame s.progress after) :
    after.netboot.state = .fileTransfer ∧ FreshInvariant after := by
  cases taken with
  | stale =>
      refine ⟨transfer, good.idle, fun here => ?_, good.small, good.limited, good.written⟩
      have fresh := good.fresh here
      exact ⟨fresh.numbered, fresh.counted, fresh.held⟩
  | next expected copied =>
      refine ⟨transfer, fun other => absurd transfer other, fun _ => ?_, ?_, ?_, good.written⟩
      · have fresh := (good.fresh transfer).accept expected copied
          (condition.2 transfer isFragment expected) (copied.end_lt good.small good.limited)
        exact ⟨fresh.numbered, fresh.counted, fresh.held⟩
      · exact Nat.mod_lt _ (by decide)
      · intro buffer known
        obtain ⟨earlier, before, same⟩ := copied.size_eq known
        exact same ▸ good.limited earlier before

theorem FreshInvariant.step {s : NetState} {frame : Memory} {after : Progress}
    (good : FreshInvariant s.progress) (condition : FreshStep s frame)
    (outcome : Outcome fw frame s.progress after) : FreshInvariant after := by
  cases outcome with
  | quiet => exact good
  | fragment transfer isFragment _ taken =>
      exact (good.taken condition transfer isFragment taken).2
  | last transfer isFragment _ taken all written =>
      obtain ⟨still, complete⟩ := good.taken condition transfer isFragment taken
      refine ⟨fun _ => ⟨rfl, rfl⟩, nofun, Nat.two_pow_pos 64, nofun, ?_⟩
      intro write member
      rcases List.mem_append.mp member with earlier | here
      · exact complete.written write earlier
      · rw [List.mem_singleton.mp here]
        exact (complete.fresh still).written all written
  | init asked isInit copied =>
      have packets : s.progress.netboot.filePacketsTransferred = 0 := condition.1 isInit
      have bytes : s.progress.netboot.fileBytesTransferred = 0 := by
        by_cases transfer : s.progress.netboot.state = .fileTransfer
        · have fresh := good.fresh transfer
          have numbered := fresh.numbered
          rw [packets] at numbered
          exact fresh.bytes_eq_zero (List.map_eq_nil_iff.mp numbered)
        · exact (good.idle transfer).1
      refine ⟨fun other => absurd rfl other, fun _ => ⟨?_, bytes, ?_⟩, good.small, ?_, good.written⟩
      · exact (congrArg List.range packets).symm
      · intro index inside
        rw [Progress.acknowledge_netboot, Progress.announce_bytes, bytes] at inside
        exact absurd inside (Nat.not_lt_zero index)
      · intro buffer known
        rcases NetFirmware.poolBlock_cases known with asks | before
        · rw [asks]
          exact Memory.load64_lt _ _
        · exact good.limited buffer before

/-- **A transfer holds what its fragments supplied.** Along every run in which no announcement
arrives in the middle of a transfer, the buffer holds the fragments accepted since the last
announcement, an announcement leaves both counters at zero, and no file is written with other
bytes, also not by a message that stops the program. -/
theorem reached_fresh {s : NetState} (reached : Reached fw FreshStep s) :
    (s.netboot.state = .fileTransfer → Fresh s.progress) ∧
      ∀ frame, FreshStep s frame →
        (∀ t, receiveMessage fw frame s = .ok () t → messageCmd frame = cmdFileSendInit →
          t.netboot.fileBytesTransferred = 0 ∧ t.netboot.filePacketsTransferred = 0) ∧
        ∀ write ∈ (finalState (receiveMessage fw frame s)).fileWrites,
          write.data = write.supplied := by
  have always : ∀ {u : NetState}, Reached fw FreshStep u → FreshInvariant u.progress :=
    Reached.invariant .initial fun good condition outcome => good.step condition outcome
  refine ⟨(always reached).fresh, fun frame condition => ⟨fun t run isInit => ?_, ?_⟩⟩
  · have after := receiveMessage_outcome run
    have complete := always (reached.message condition run)
    obtain ⟨transfer, nothing⟩ := after.announced isInit
    exact ⟨(complete.fresh transfer).bytes_eq_zero nothing,
      (complete.fresh transfer).packets_eq_zero nothing⟩
  · cases run : receiveMessage fw frame s with
    | ok _ t => exact (always (reached.message condition run)).written
    | error reason t =>
        intro write member
        have same : t.fileWrites = s.progress.fileWrites := receiveMessage_error run
        exact (always reached).written write (same ▸ member)

/-- A file is received whole, and then the first of the two fragments of another one. -/
def receivedTwice : List Memory :=
  [initFrame 4 4 1 [0x61, 0], fragmentFrame 0 [9, 8, 7, 6], initFrame 8 4 2 [0x62, 0],
    fragmentFrame 0 [1, 2, 3, 4]]

theorem reached_fresh_sample :
    Fresh (sampleAfter receivedTwice).progress ∧
      (sampleAfter receivedTwice).accepted = [⟨0, [1, 2, 3, 4]⟩] ∧
      (sampleAfter receivedTwice).fileWrites = [⟨[0x61], [9, 8, 7, 6], [9, 8, 7, 6]⟩] := by
  have reached : Reached sampleNetFirmware FreshStep (sampleAfter receivedTwice) :=
    (Reached.start rfl).along (by decide +kernel : Along _ _ sampleNetState receivedTwice)
      (ok_of_returned (by decide +kernel))
  exact ⟨(reached_fresh reached).1 (by decide +kernel), by decide +kernel, by decide +kernel⟩

/-- The announcement that arrives a second time after the first of two fragments. -/
def announcedTwice : List Memory :=
  [initFrame 8 4 2 [0x61, 0], fragmentFrame 0 [1, 2, 3, 4], initFrame 8 4 2 [0x61, 0]]

/-- **A second announcement keeps the counters**, with a new buffer whose start no fragment has
filled. The next fragment ends the transfer, and the file starts with the old contents of the
pool. -/
theorem second_announcement_keeps_counters :
    (∃ s, Reached sampleNetFirmware (fun _ _ => True) s ∧ s.netboot.state = .fileTransfer ∧
      s.accepted = [] ∧ s.netboot.filePacketsTransferred = 1 ∧
      s.netboot.fileBytesTransferred = 4 ∧ ¬ Fresh s.progress) ∧
    ∃ s, Reached sampleNetFirmware (fun _ _ => True) s ∧
      s.fileWrites = [⟨[0x61], [0xAA, 0xAA, 0xAA, 0xAA, 5, 6, 7, 8], [5, 6, 7, 8]⟩] := by
  refine ⟨⟨sampleAfter announcedTwice, ?_⟩,
    ⟨sampleAfter (announcedTwice ++ [fragmentFrame 1 [5, 6, 7, 8]]), ?_⟩⟩
  · have nothing : (sampleAfter announcedTwice).accepted = [] := by decide +kernel
    have packets : (sampleAfter announcedTwice).netboot.filePacketsTransferred = 1 := by
      decide +kernel
    have stale : ∀ s : NetState, s.accepted = [] → s.netboot.filePacketsTransferred = 1 →
        ¬ Fresh s.progress := fun s nothing packets fresh =>
      absurd (packets.symm.trans (fresh.packets_eq_zero nothing)) Nat.one_ne_zero
    exact ⟨sampleAfter_reached (by decide +kernel), by decide +kernel, nothing, packets,
      by decide +kernel, stale _ nothing packets⟩
  · exact ⟨sampleAfter_reached (by decide +kernel), by decide +kernel⟩

end VineyardLoader
