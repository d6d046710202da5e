import VineyardLoader.Net.Safety

/-!
# The room in the file buffer

The length of a fragment is not checked against the room in the file buffer. Whether a copy
stays in the buffer can be told from the messages alone: an announcement says how many bytes
the file has, and each fragment that comes in order adds its length to a sum. A ledger of the
messages keeps the two numbers.

As long as the sum stays within the announced size, the buffer has that size and the copies
stay in it, and the first fragment with which the sum exceeds the size is copied past the end
(`receiveMessages_bounded`). One fragment is enough for that (`long_fragment_leaves_buffer`).
-/

set_option autoImplicit false

namespace VineyardLoader

/-! ## The ledger -/

/-- The `file_size` of an announcement. -/
def announcedSize (frame : Memory) : Nat := frame.loadLE 78 8

/-- What messages say about the transfer: the size of the announced file, and how many
fragments and bytes count towards it. -/
structure Ledger where
  size : Option Nat
  packets : Nat
  bytes : Nat

namespace Ledger

/-- Nothing has been announced. -/
def start : Ledger := ⟨none, 0, 0⟩

/-- A fragment with the next number adds its length. -/
def take (ledger : Ledger) (frame : Memory) : Ledger :=
  if fragmentId frame = ledger.packets then
    { ledger with
      packets := (ledger.packets + 1) % 2 ^ 64
      bytes := ledger.bytes + fragmentLength frame }
  else ledger

/-- A transfer that has all its bytes is over. -/
def settle (ledger : Ledger) (size : Nat) : Ledger :=
  if ledger.bytes = size then start else ledger

/-- The ledger after a message. An announcement keeps the two counters. -/
def after (ledger : Ledger) (frame : Memory) : Ledger :=
  if messageCmd frame = cmdFileSendInit then { ledger with size := some (announcedSize frame) }
  else if messageCmd frame = cmdFileFragment then
    match ledger.size with
    | none => ledger
    | some size => (ledger.take frame).settle size
  else ledger

/-- The fragment of a message, if it is the next one, has no more bytes than are left. -/
def FragmentFits (ledger : Ledger) (frame : Memory) : Prop :=
  ∀ size ∈ ledger.size, messageCmd frame = cmdFileFragment →
    fragmentId frame = ledger.packets → ledger.bytes + fragmentLength frame ≤ size

/-- An announcement has a size in it that is not below the bytes that are counted already. -/
def AnnouncementFits (ledger : Ledger) (frame : Memory) : Prop :=
  messageCmd frame = cmdFileSendInit →
    24 ≤ messageLength frame ∧ ledger.bytes ≤ announcedSize frame

instance (ledger : Ledger) (frame : Memory) : Decidable (ledger.FragmentFits frame) :=
  inferInstanceAs (Decidable (∀ size ∈ ledger.size, _))

instance (ledger : Ledger) (frame : Memory) : Decidable (ledger.AnnouncementFits frame) :=
  inferInstanceAs (Decidable (_ → _))

/-- Every message of a list fits what the ones before it have left. -/
def Fitting : Ledger → List Memory → Prop
  | _, [] => True
  | ledger, frame :: frames =>
      (ledger.AnnouncementFits frame ∧ ledger.FragmentFits frame) ∧
        Fitting (ledger.after frame) frames

instance Fitting.decidable : ∀ (ledger : Ledger) (frames : List Memory),
    Decidable (ledger.Fitting frames)
  | _, [] => isTrue trivial
  | ledger, frame :: frames =>
      @instDecidableAnd _ _ _ (Fitting.decidable (ledger.after frame) frames)

section After

variable {ledger : Ledger} {frame : Memory}

theorem after_init (isInit : messageCmd frame = cmdFileSendInit) :
    ledger.after frame = { ledger with size := some (announcedSize frame) } :=
  if_pos isInit

theorem after_fragment {size : Nat} (known : ledger.size = some size)
    (isFragment : messageCmd frame = cmdFileFragment) :
    ledger.after frame = (ledger.take frame).settle size := by
  rw [after, if_neg (not_init_of_fragment isFragment), if_pos isFragment, known]

theorem after_quiet (notInit : messageCmd frame ≠ cmdFileSendInit)
    (notFragment : ¬ (ledger.size.isSome ∧ messageCmd frame = cmdFileFragment)) :
    ledger.after frame = ledger := by
  rw [after, if_neg notInit]
  split
  · rename_i isFragment
    cases known : ledger.size with
    | none => rfl
    | some size => exact absurd ⟨by rw [known]; rfl, isFragment⟩ notFragment
  · rfl

end After

end Ledger

/-! ## The buffer of an announcement -/

section Announcement

variable {fw : NetFirmware} {s t : NetState} {frame : Memory}

/-- The state in which the announcement of a frame asks for the file buffer. -/
def NetFirmware.asking (fw : NetFirmware) (frame : Memory) (s : NetState) : NetState :=
  finalState ((do
    modify fun s => { s with frame := frame }
    receiveTransfer fw messageStart
    let _ ← frameLE messageStart 4
    let fileInfo ← receiveInfo fw messageStart
    modify fun s =>
      { s with
        netboot := { s.netboot with fileInfo := fileInfo, state := .fileTransfer }
        accepted := [] } : Net Unit) s)

/-- A buffer for the announced file is granted, if the message of the frame is an
announcement. -/
def NetFirmware.GrantsBuffer (fw : NetFirmware) (s : NetState) (frame : Memory) : Prop :=
  messageCmd frame = cmdFileSendInit →
    (fw.allocatePool (fw.asking frame s) (announcedSize frame)).isSome

instance (fw : NetFirmware) (s : NetState) (frame : Memory) : Decidable (fw.GrantsBuffer s frame) :=
  inferInstanceAs (Decidable (_ → _))

/-- After an announcement the transfer has the buffer that was asked for, and the counters as
they were. -/
theorem receiveMessage_announced (run : receiveMessage fw frame s = .ok () t)
    (isInit : messageCmd frame = cmdFileSendInit) :
    t.netboot.state = .fileTransfer ∧ t.copies = s.copies ∧
      t.netboot.fileBytesTransferred = s.netboot.fileBytesTransferred ∧
      t.netboot.filePacketsTransferred = s.netboot.filePacketsTransferred ∧
      ∃ info, t.netboot.fileInfo = some info ∧
        (24 ≤ messageLength frame → info.fileSize = announcedSize frame) ∧
        t.netboot.fileBuffer =
          fw.poolBlock (fw.asking frame s) info.fileSize s.netboot.fileBuffer := by
  rw [receiveMessage, bind_of_ok (modify_run _ _), messageStart] at run
  obtain ⟨⟨⟩, handled, handle, rest⟩ := bind_eq_ok.mp run
  obtain ⟨(handledFrame : handled.frame = frame), outcome⟩ := receiveTransfer_ok handle rfl
  have handledProgress : handled.progress = s.progress := by
    rcases outcome with ⟨-, same⟩ | ⟨isFragment, -⟩
    · exact same
    · exact absurd isInit (not_init_of_fragment isFragment)
  rw [bind_of_ok (frameLE_run _ _ _), handledFrame,
    show frame.loadLE 62 4 = cmdFileSendInit from isInit, dispatch_init] at rest
  obtain ⟨fileInfo, informed, inform, rest'⟩ := bind_eq_ok.mp rest
  obtain ⟨-, informedProgress, old, copied⟩ := receiveInfo_ok inform handledFrame
  obtain ⟨⟨⟩, started, start, ack⟩ := bind_eq_ok.mp rest'
  rw [startTransfer, bind_of_ok (modify_run _ _)] at start
  obtain ⟨info, known, deref, allocate⟩ := bind_eq_ok.mp start
  obtain ⟨rfl, rfl⟩ := Block.deref_ok.mp deref
  rw [bind_of_ok (netAllocatePool_run _ _), bind_of_ok (get_run _), modify_run,
    EStateM.Result.ok.injEq] at allocate
  obtain ⟨-, rfl⟩ := allocate
  have same : informed.progress = s.progress := informedProgress.trans handledProgress
  have asked : fw.asking frame s =
      { informed with
        netboot := { informed.netboot with fileInfo := some info, state := .fileTransfer }
        accepted := [] } := by
    rw [NetFirmware.asking, bind_of_ok (modify_run _ _), messageStart, bind_of_ok handle,
      bind_of_ok (frameLE_run _ _ _), bind_of_ok inform, modify_run]
    rfl
  have after := (sendAck_ok ack).1
  have netboot : t.netboot = _ := congrArg Progress.netboot after
  have copies : t.copies = informed.copies := congrArg Progress.copies after
  have before : informed.netboot = s.netboot := congrArg Progress.netboot same
  refine ⟨?_, copies.trans (congrArg Progress.copies same), ?_, ?_, info, ?_, ?_, ?_⟩
  · rw [netboot]
    rfl
  · rw [netboot, ← before]
    rfl
  · rw [netboot, ← before]
    rfl
  · rw [netboot]
    rfl
  · intro long
    exact copied.fileSize_eq (by rw [announcedSize_eq (by omega)]; omega)
  · rw [netboot, asked, ← before]
    rfl

end Announcement

/-! ## The ledger and the transfer -/

/-- The transfer is what the ledger says, and all copies have stayed inside. -/
structure Ledger.Tracks (ledger : Ledger) (transfer : Progress) : Prop where
  running : transfer.netboot.state = .fileTransfer ↔ ledger.size.isSome
  packets : transfer.netboot.filePacketsTransferred = ledger.packets
  bytes : transfer.netboot.fileBytesTransferred = ledger.bytes
  room : ∀ size, ledger.size = some size → ∃ info buffer,
    transfer.netboot.fileInfo = some info ∧ transfer.netboot.fileBuffer = some buffer ∧
      info.fileSize = size ∧ buffer.size = size ∧ ledger.bytes ≤ size
  copied : ∀ copy ∈ transfer.copies, copy.Inside ∧ copy.start + copy.size < 2 ^ 64

namespace Ledger

theorem start_tracks {transfer : Progress}
    (initial : transfer.netboot = ⟨transfer.netboot.state, none, none, 0, 0⟩)
    (idle : transfer.netboot.state ≠ .fileTransfer)
    (copied : ∀ copy ∈ transfer.copies, copy.Inside ∧ copy.start + copy.size < 2 ^ 64) :
    start.Tracks transfer where
  running := iff_of_false idle nofun
  packets := by rw [initial]; rfl
  bytes := by rw [initial]; rfl
  room _ known := nomatch known
  copied := copied

section Steps

variable {fw : NetFirmware} {ledger : Ledger} {before after : Progress} {frame : Memory}
  {size : Nat}

/-- The copy of the fragment that is expected stays in the buffer exactly if it fits. -/
theorem Tracks.copy_iff (tracks : ledger.Tracks before) (known : ledger.size = some size) :
    ((before.netboot.fragmentCopy frame).Inside ∧
        before.netboot.fileBytesTransferred + fragmentLength frame < 2 ^ 64) ↔
      ledger.bytes + fragmentLength frame ≤ size := by
  obtain ⟨info, buffer, -, hasBuffer, fileSize, bufferSize, -⟩ := tracks.room size known
  have small : size < 2 ^ 64 := fileSize ▸ Memory.load64_lt _ _
  have limit : (before.netboot.fragmentCopy frame).limit = size := by
    rw [Netboot.fragmentCopy, hasBuffer]
    exact bufferSize
  rw [Access.Inside, limit, ← tracks.bytes]
  exact ⟨fun both => both.1, fun fits => ⟨fits, Nat.lt_of_le_of_lt fits small⟩⟩

/-- The first half of the handling of a fragment that fits. -/
theorem Tracks.taken (tracks : ledger.Tracks before) (known : ledger.size = some size)
    (fits : fragmentId frame = ledger.packets → ledger.bytes + fragmentLength frame ≤ size)
    (taken : Taken frame before after) : (ledger.take frame).Tracks after := by
  cases taken with
  | stale other =>
      rw [take, if_neg (tracks.packets ▸ other)]
      exact ⟨tracks.running, tracks.packets, tracks.bytes, tracks.room, tracks.copied⟩
  | next expected copied =>
      have next : fragmentId frame = ledger.packets := expected.trans tracks.packets
      obtain ⟨inside, small⟩ := (tracks.copy_iff known).mpr (fits next)
      obtain ⟨info, buffer, hasInfo, hasBuffer, fileSize, bufferSize, -⟩ := tracks.room size known
      rw [take, if_pos next]
      refine ⟨tracks.running, ?_, ?_, ?_, ?_⟩
      · rw [Progress.acknowledge_netboot, Progress.accept_packets, tracks.packets]
      · rw [Progress.acknowledge_netboot, Progress.accept_bytes, Nat.mod_eq_of_lt small,
          tracks.bytes]
      · intro other same
        obtain rfl : size = other := Option.some.inj (known.symm.trans same)
        obtain ⟨later, hasLater, laterSize⟩ := copied.exists_block hasBuffer
        exact ⟨info, later, hasInfo, hasLater, fileSize, laterSize.trans bufferSize, fits next⟩
      · intro copy member
        rcases List.mem_append.mp member with earlier | here
        · exact tracks.copied copy earlier
        · rw [List.mem_singleton.mp here]
          exact ⟨inside, small⟩

/-- A fragment that fits keeps the ledger in step with the transfer. -/
theorem Tracks.fragment (tracks : ledger.Tracks before) (fits : ledger.FragmentFits frame)
    (transfer : before.netboot.state = .fileTransfer)
    (isFragment : messageCmd frame = cmdFileFragment) (outcome : Outcome fw frame before after) :
    (ledger.after frame).Tracks after := by
  obtain ⟨size, known⟩ := Option.isSome_iff_exists.mp (tracks.running.mp transfer)
  obtain ⟨info, _, hasInfo, _, fileSize, _⟩ := tracks.room size known
  have fit := fits size known isFragment
  rw [after_fragment known isFragment]
  cases outcome with
  | quiet _ notFragment => exact absurd ⟨transfer, isFragment⟩ notFragment
  | fragment _ _ same taken more =>
      have later := tracks.taken known fit taken
      obtain rfl := Option.some.inj (hasInfo.symm.trans same)
      rwa [settle, if_neg (by rw [← later.bytes, ← fileSize]; exact more)]
  | last _ _ same taken all =>
      have later := tracks.taken known fit taken
      obtain rfl := Option.some.inj (hasInfo.symm.trans same)
      rw [settle, if_pos (by rw [← later.bytes, ← fileSize]; exact all)]
      exact start_tracks rfl nofun later.copied
  | init _ isInit => exact absurd isInit (not_init_of_fragment isFragment)

/-- A message that fits, with its buffer granted if it is an announcement, keeps the ledger in
step with the transfer. -/
theorem Tracks.step {s t : NetState} (tracks : ledger.Tracks s.progress)
    (announcement : ledger.AnnouncementFits frame) (fragment : ledger.FragmentFits frame)
    (granted : fw.GrantsBuffer s frame) (run : receiveMessage fw frame s = .ok () t) :
    (ledger.after frame).Tracks t.progress := by
  by_cases isInit : messageCmd frame = cmdFileSendInit
  · obtain ⟨long, received⟩ := announcement isInit
    obtain ⟨state, copies, bytes, packets, info, hasInfo, announced, hasBuffer⟩ :=
      receiveMessage_announced run isInit
    rw [after_init isInit]
    refine ⟨iff_of_true state rfl, packets.trans tracks.packets, bytes.trans tracks.bytes, ?_, ?_⟩
    · intro size known
      obtain rfl : announcedSize frame = size := Option.some.inj known
      obtain ⟨buffer, grantedBuffer, size⟩ := NetFirmware.poolBlock_granted s.netboot.fileBuffer
        (announced long ▸ granted isInit)
      exact ⟨info, buffer, hasInfo, hasBuffer.trans grantedBuffer, announced long,
        size.trans (announced long), received⟩
    · intro copy member
      have earlier : copy ∈ s.copies := copies ▸ member
      exact tracks.copied copy earlier
  · have outcome := receiveMessage_outcome run
    by_cases isFragment : s.netboot.state = .fileTransfer ∧ messageCmd frame = cmdFileFragment
    · exact tracks.fragment fragment isFragment.1 isFragment.2 outcome
    · rw [after_quiet isInit fun both => isFragment ⟨tracks.running.mpr both.1, both.2⟩]
      generalize t.progress = after at outcome
      cases outcome with
      | quiet => exact tracks
      | fragment transfer isFragment' => exact absurd ⟨transfer, isFragment'⟩ isFragment
      | last transfer isFragment' => exact absurd ⟨transfer, isFragment'⟩ isFragment
      | init _ isInit' => exact absurd isInit' isInit

/-- Whichever way the handling of a message ends, all copies are inside exactly if it is no
fragment that is too long. -/
theorem Tracks.copies_iff {s : NetState} (tracks : ledger.Tracks s.progress) :
    (∀ copy ∈ (finalState (receiveMessage fw frame s)).copies,
        copy.Inside ∧ copy.start + copy.size < 2 ^ 64) ↔ ledger.FragmentFits frame := by
  constructor
  · intro inside size known isFragment expected
    obtain ⟨info, -, hasInfo, -⟩ := tracks.room size known
    have expects : s.netboot.Expects frame :=
      ⟨tracks.running.mpr (known ▸ rfl), isFragment, expected.trans tracks.packets.symm⟩
    rcases receiveMessage_copies fw frame s with ⟨unexpected, -⟩ | ⟨-, one⟩
    · exact absurd expects (unexpected (hasInfo ▸ rfl))
    · have copied := inside (s.netboot.fragmentCopy frame)
        (one ▸ List.mem_append_right _ List.mem_cons_self)
      exact (tracks.copy_iff known).mp copied
  · intro fits copy member
    rcases receiveMessage_copies fw frame s with ⟨-, same⟩ | ⟨expects, one⟩
    · rw [same] at member
      exact tracks.copied copy member
    · rw [one] at member
      rcases List.mem_append.mp member with earlier | here
      · exact tracks.copied copy earlier
      · obtain ⟨size, known⟩ := Option.isSome_iff_exists.mp (tracks.running.mp expects.1)
        rw [List.mem_singleton.mp here]
        exact (tracks.copy_iff known).mpr
          (fits size known expects.2.1 (expects.2.2.trans tracks.packets))

/-- An announcement with a size leaves the bytes within the size exactly if it is not below the
bytes that are counted already. -/
theorem Tracks.announced_iff {s t : NetState} (tracks : ledger.Tracks s.progress)
    (run : receiveMessage fw frame s = .ok () t) (isInit : messageCmd frame = cmdFileSendInit)
    (long : 24 ≤ messageLength frame) :
    (∀ info, t.netboot.fileInfo = some info → t.netboot.fileBytesTransferred ≤ info.fileSize) ↔
      ledger.AnnouncementFits frame := by
  obtain ⟨-, -, bytes, -, info, hasInfo, announced, -⟩ := receiveMessage_announced run isInit
  have counted : t.netboot.fileBytesTransferred = ledger.bytes := bytes.trans tracks.bytes
  constructor
  · intro bounded _
    exact ⟨long, counted ▸ announced long ▸ bounded info hasInfo⟩
  · intro fits other known
    obtain rfl := Option.some.inj (hasInfo.symm.trans known)
    rw [counted, announced long]
    exact (fits isInit).2

/-- A list of messages that fit keeps the ledger in step with the transfer. -/
theorem Tracks.run {s t : NetState} {frames : List Memory} (tracks : ledger.Tracks s.progress)
    (fitting : ledger.Fitting frames) (granted : Along fw fw.GrantsBuffer s frames)
    (run : receiveMessages fw frames s = .ok () t) :
    (frames.foldl Ledger.after ledger).Tracks t.progress := by
  induction frames generalizing s ledger with
  | nil =>
      cases run
      exact tracks
  | cons frame frames ih =>
      obtain ⟨⟨⟩, middle, first, rest⟩ := bind_eq_ok.mp run
      obtain ⟨⟨announcement, fragment⟩, fitting⟩ := fitting
      obtain ⟨granted, later⟩ := granted
      rw [first] at later
      exact ih (tracks.step announcement fragment granted first) fitting later rest

end Steps

end Ledger

/-! ## Runs -/

/-- **The copies stay in the file buffer exactly while the fragments fit the announcements.**
For every list of messages that fit and whose buffers are granted: the transfer has a buffer of
the announced size and has received no more than that; the next message, whichever way it ends,
leaves every copy inside the buffer and below 2^64 exactly if it is no fragment that is too
long; and if it is an announcement with a size, it leaves the bytes within the size exactly if
the size is not below the bytes that are counted already. -/
theorem receiveMessages_bounded {fw : NetFirmware} {s t : NetState} {frames : List Memory}
    (initial : s.progress = .initial) (fitting : Ledger.start.Fitting frames)
    (granted : Along fw fw.GrantsBuffer s frames)
    (run : receiveMessages fw frames s = .ok () t) :
    (t.netboot.state = .fileTransfer → ∃ info buffer, t.netboot.fileInfo = some info ∧
      t.netboot.fileBuffer = some buffer ∧ buffer.size = info.fileSize ∧
      t.netboot.fileBytesTransferred ≤ info.fileSize) ∧
    ∀ frame,
      ((∀ copy ∈ (finalState (receiveMessage fw frame t)).copies,
          copy.Inside ∧ copy.start + copy.size < 2 ^ 64) ↔
        (frames.foldl Ledger.after .start).FragmentFits frame) ∧
      ∀ u, receiveMessage fw frame t = .ok () u → messageCmd frame = cmdFileSendInit →
        24 ≤ messageLength frame →
          ((∀ info, u.netboot.fileInfo = some info →
              u.netboot.fileBytesTransferred ≤ info.fileSize) ↔
            (frames.foldl Ledger.after .start).AnnouncementFits frame) := by
  have tracks : (frames.foldl Ledger.after .start).Tracks t.progress := by
    refine Ledger.Tracks.run ?_ fitting granted run
    rw [initial]
    exact Ledger.start_tracks rfl nofun nofun
  generalize frames.foldl Ledger.after .start = ledger at tracks ⊢
  refine ⟨fun transfer => ?_, fun frame => ⟨tracks.copies_iff, fun u run isInit long =>
    tracks.announced_iff run isInit long⟩⟩
  obtain ⟨size, known⟩ := Option.isSome_iff_exists.mp (tracks.running.mp transfer)
  obtain ⟨info, buffer, hasInfo, hasBuffer, fileSize, bufferSize, received⟩ :=
    tracks.room size known
  exact ⟨info, buffer, hasInfo, hasBuffer, bufferSize.trans fileSize.symm,
    tracks.bytes ▸ fileSize ▸ received⟩

/-- The first half of a file of eight bytes. -/
def halfReceived : List Memory := [initFrame 8 4 2 [0x61, 0], fragmentFrame 0 [1, 2, 3, 4]]

theorem receiveMessages_bounded_sample :
    (∃ info buffer, (sampleAfter halfReceived).netboot.fileInfo = some info ∧
      (sampleAfter halfReceived).netboot.fileBuffer = some buffer ∧
      buffer.size = info.fileSize ∧
      (sampleAfter halfReceived).netboot.fileBytesTransferred ≤ info.fileSize) ∧
    (∀ copy ∈ (finalState (receiveMessage sampleNetFirmware (fragmentFrame 1 [5, 6, 7, 8])
        (sampleAfter halfReceived))).copies, copy.Inside ∧ copy.start + copy.size < 2 ^ 64) ∧
    ¬ ∀ copy ∈ (finalState (receiveMessage sampleNetFirmware (fragmentFrame 1 [5, 6, 7, 8, 9])
        (sampleAfter halfReceived))).copies, copy.Inside ∧ copy.start + copy.size < 2 ^ 64 := by
  have start : sampleNetState.progress = .initial := rfl
  have fitting : Ledger.start.Fitting halfReceived := by decide +kernel
  have granted : Along sampleNetFirmware sampleNetFirmware.GrantsBuffer sampleNetState
      halfReceived := by decide +kernel
  have run : receiveMessages sampleNetFirmware halfReceived sampleNetState =
      .ok () (sampleAfter halfReceived) := ok_of_returned (by decide +kernel)
  obtain ⟨room, next⟩ := receiveMessages_bounded start fitting granted run
  refine ⟨room (by decide +kernel), (next _).1.mpr (by decide +kernel), fun inside => ?_⟩
  exact absurd ((next _).1.mp inside) (by decide +kernel)

/-- **A fragment that is longer than the file leaves the buffer.** The file has four bytes,
and the copy of its first fragment has eight. -/
theorem long_fragment_leaves_buffer :
    ¬ ∀ (fw : NetFirmware) (s : NetState), Reached fw (fun _ _ => True) s →
      ∀ frame, ∀ copy ∈ (finalState (receiveMessage fw frame s)).copies, copy.Inside := by
  intro always
  have copied : (finalState (receiveMessage sampleNetFirmware
      (fragmentFrame 0 [1, 2, 3, 4, 5, 6, 7, 8])
      (sampleAfter [initFrame 4 4 1 [0x61, 0]]))).copies = [⟨0, 8, 4⟩] := by decide +kernel
  have inside := always sampleNetFirmware (sampleAfter [initFrame 4 4 1 [0x61, 0]])
    (sampleAfter_reached (by decide +kernel)) (fragmentFrame 0 [1, 2, 3, 4, 5, 6, 7, 8]) ⟨0, 8, 4⟩
  rw [copied] at inside
  exact absurd (inside List.mem_cons_self) (by decide)

end VineyardLoader
