import VineyardLoader.Net.Receive
import VineyardLoader.Net.Calls

/-!
# Reads of a received frame

The IPv6 header says how long the packet is, and what is behind its end in the frame does not
belong to it. A frame stays inside its packet if every byte that is read lies before the end,
if the path of a completed file is read inside its file info, and if no message is shorter than
its own header.

The handlers below `net_eth_receive` do not look at the length. Whether a frame stays inside its
packet depends on the lengths that the headers in it give, and `netEthReceive_inside` says which
lengths they have to be.
-/

set_option autoImplicit false

namespace VineyardLoader

/-- Every byte of the range lies before the limit. -/
def Extent.Below (extent : Extent) (limit : Nat) : Prop :=
  ∀ address, extent.Contains address → address < limit

theorem Extent.below_iff {extent : Extent} {limit : Nat} :
    extent.Below limit ↔ extent.size = 0 ∨ extent.start + extent.size ≤ limit := by
  constructor
  · intro below
    rcases Nat.eq_zero_or_pos extent.size with empty | positive
    · exact .inl empty
    · have last := below (extent.start + extent.size - 1) ⟨by omega, by omega⟩
      exact .inr (by omega)
  · rintro bound address ⟨lower, upper⟩
    omega

/-- The reads noted in the state stay inside a packet that ends at the limit. -/
def NetState.ReadsInside (limit : Nat) (s : NetState) : Prop :=
  (∀ read ∈ s.frameReads, read.Below limit) ∧ (∀ access ∈ s.pathReads, access.Inside) ∧
    ∀ length ∈ s.infoLengths, 16 ≤ length

section Inside

variable {fw : NetFirmware} {limit : Nat} {s : NetState} {frame : Memory}

theorem readsInside_withRead {offset size : Nat} :
    (s.withRead offset size).ReadsInside limit ↔
      Extent.Below ⟨offset, size⟩ limit ∧ s.ReadsInside limit := by
  simp only [NetState.ReadsInside, NetState.withRead, List.forall_mem_cons, and_assoc]

/-- A read of the headers is a read inside every packet. -/
theorem readsInside_header {offset size n : Nat} (inside : offset + size ≤ 54) :
    (s.withRead offset size).ReadsInside (54 + n) ↔ s.ReadsInside (54 + n) := by
  have below : Extent.Below ⟨offset, size⟩ (54 + n) :=
    Extent.below_iff.mpr (.inr (Nat.le_trans inside (Nat.le_add_right _ _)))
  rw [readsInside_withRead, and_iff_right below]

theorem readsInside_withLength {length : Nat} :
    NetState.ReadsInside limit { s with infoLengths := length :: s.infoLengths } ↔
      16 ≤ length ∧ s.ReadsInside limit := by
  simp only [NetState.ReadsInside, List.forall_mem_cons]
  tauto

theorem readsInside_withPath {access : Access} :
    NetState.ReadsInside limit { s with pathReads := access :: s.pathReads } ↔
      access.Inside ∧ s.ReadsInside limit := by
  simp only [NetState.ReadsInside, List.forall_mem_cons]
  tauto

theorem frameLE_inside {offset width : Nat} (before : offset + width ≤ limit) :
    Keeps (NetState.ReadsInside limit) (frameLE offset width) := by
  intro s
  rw [frameLE_run]
  exact propext (readsInside_withRead.trans
    (and_iff_right (Extent.below_iff.mpr (.inr before))))

theorem frameBytes_inside {offset size : Nat} (before : offset + size ≤ limit) :
    Keeps (NetState.ReadsInside limit) (frameBytes offset size) := by
  intro s
  rw [frameBytes_run]
  exact propext (readsInside_withRead.trans
    (and_iff_right (Extent.below_iff.mpr (.inr before))))

theorem copy_inside (block : Option Block) (start size : Nat) (source : Memory) :
    Keeps (NetState.ReadsInside limit) (Block.copy block start size source) :=
  Block.copy_keeps block start size source

theorem sendAck_inside (ack : Ack) : Keeps (NetState.ReadsInside limit) (sendAck fw ack) :=
  sendAck_keeps (fun _ => rfl) (fun _ _ => rfl) ack

/-! ## Announcements -/

/-- The announcement reads its length, and copies as many bytes as its length says. -/
theorem receiveInit_inside (here : s.frame = frame) :
    (finalState (receiveInit fw 62 s)).ReadsInside limit ↔
      s.ReadsInside limit ∧ Extent.Below ⟨70, 8⟩ limit ∧ 16 ≤ messageLength frame ∧
        Extent.Below ⟨78, (messageLength frame + 2 ^ 64 - 16) % 2 ^ 64⟩ limit := by
  subst here
  have started : ∀ fileInfo, Keeps (NetState.ReadsInside limit) (do
      startTransfer fw fileInfo
      sendAck fw ⟨cmdFileSendInit, 0⟩) := by
    intro fileInfo
    refine Keeps.bind ?_ fun _ => sendAck_inside _
    refine Keeps.bind (Keeps.modify fun _ => rfl) fun _ => (Block.deref_keeps _).bind fun _ => ?_
    refine (netAllocatePool_keeps _).bind fun _ => Keeps.get.bind fun _ => ?_
    exact Keeps.modify fun _ => rfl
  rw [receiveInit, Keeps.after started, receiveInfo, bind_of_ok (frameLE_run _ _ _),
    bind_of_ok (modify_run _ _), bind_of_ok (netAllocatePool_run _ _), bind_of_ok (get_run _),
    bind_of_ok (frameBytes_run _ _ _), copy_inside, readsInside_withRead, readsInside_withLength,
    readsInside_withRead]
  constructor
  · rintro ⟨copied, length, read, inside⟩
    exact ⟨inside, read, length, copied⟩
  · rintro ⟨inside, read, length, copied⟩
    exact ⟨copied, length, read, inside⟩

/-! ## Fragments -/

/-- The path of the file ends inside the file info. -/
def PathInside (info : Block) : Prop :=
  ∃ length, strlen info.path = some length ∧ 32 + length < info.size

theorem filePath_inside (info : Block) :
    (finalState (filePath fw info s)).ReadsInside limit ↔
      PathInside info ∧ s.ReadsInside limit := by
  cases measured : strlen info.path with
  | none =>
      have run : filePath fw info s = .error .diverged
          { s with pathReads := ⟨32, info.size + 1, info.size⟩ :: s.pathReads } := by
        rw [filePath, measured]
        rfl
      have endless : ¬ PathInside info := by
        rintro ⟨length, known, -⟩
        rw [measured] at known
        cases known
      have outside : ¬ (⟨32, info.size + 1, info.size⟩ : Access).Inside :=
        Nat.not_le.mpr (show info.size < 32 + (info.size + 1) by omega)
      rw [run]
      exact readsInside_withPath.trans (by simp [endless, outside])
  | some length =>
      have ended : (⟨32, length + 1, info.size⟩ : Access).Inside ↔ PathInside info := by
        constructor
        · exact fun inside => ⟨length, measured, inside⟩
        · rintro ⟨other, known, inside⟩
          obtain rfl : length = other := Option.some.inj (measured.symm.trans known)
          exact inside
      have run : (finalState (filePath fw info s)).ReadsInside limit ↔ NetState.ReadsInside limit
          { s with pathReads := ⟨32, length + 1, info.size⟩ :: s.pathReads } := by
        simp only [filePath, measured]
        rw [bind_of_ok (modify_run _ _)]
        refine iff_of_eq (((netMalloc_keeps _).bind fun _ => ?_) _)
        split
        · exact Keeps.pure _
        · exact Keeps.throw _
      rw [run, readsInside_withPath, ended]

/-- The end of a transfer reads the path of the file. -/
theorem finishTransfer_inside (info : Block) :
    (finalState (finishTransfer fw info s)).ReadsInside limit ↔
      PathInside info ∧ s.ReadsInside limit := by
  have call : ∀ {answer : NetState → Bool} {rest : Net (List Nat)},
      Keeps (NetState.ReadsInside limit) rest →
        Keeps (NetState.ReadsInside limit) (do netErr (answer (← get)); rest) :=
    fun keeps => Keeps.get.bind fun _ => (netErr_keeps _).bind fun _ => keeps
  have stored : ∀ path, Keeps (NetState.ReadsInside limit) (do
      let data ← fileData info
      writeFile fw path data
      modify fun s => { s with netboot := ⟨.cmdWait, none, none, 0, 0⟩ }) := by
    intro path
    refine (fileData_keeps info).bind fun data => Keeps.bind ?_ fun _ => Keeps.modify fun _ => rfl
    exact Keeps.get.bind fun _ => (netErr_keeps _).bind fun _ => Keeps.modify fun _ => rfl
  have opened : ∀ path, Keeps (NetState.ReadsInside limit) (do
      netErr (fw.loadedImage (← get))
      netErr (fw.fileSystem (← get))
      netErr (fw.openVolume (← get))
      netErr (fw.openFile (← get) path)
      return path) :=
    fun path => call (call (call (call (Keeps.pure path))))
  rw [finishTransfer, Keeps.after stored, openFile, Keeps.after opened, filePath_inside]

theorem acceptFragment_inside (fragmentId dataLen : Nat) :
    (finalState (acceptFragment 62 fragmentId dataLen s)).ReadsInside limit ↔
      Extent.Below ⟨94, dataLen⟩ limit ∧ s.ReadsInside limit := by
  rw [acceptFragment, bind_of_ok (get_run _), bind_of_ok (frameBytes_run _ _ _),
    bind_of_ok (modify_run _ _)]
  refine Iff.trans (iff_of_eq (Keeps.after (fun _ => ?_) _)) ?_
  · exact Keeps.modify fun _ => rfl
  · rw [copy_inside]
    exact readsInside_withRead

/-- The fields of the fragment of a frame lie before the limit, and its data if it is the next
one. -/
def Netboot.FragmentInside (limit : Nat) (netboot : Netboot) (frame : Memory) : Prop :=
  Extent.Below ⟨86, 8⟩ limit ∧ Extent.Below ⟨78, 8⟩ limit ∧
    (fragmentId frame = netboot.filePacketsTransferred →
      Extent.Below ⟨94, fragmentLength frame⟩ limit)

theorem takeFragment_inside (here : s.frame = frame) :
    (finalState (takeFragment fw 62 s)).ReadsInside limit ↔
      s.ReadsInside limit ∧ s.netboot.FragmentInside limit frame := by
  subst here
  rw [takeFragment, bind_of_ok (get_run _), bind_of_ok (frameLE_run _ _ _),
    bind_of_ok (frameLE_run _ _ _)]
  split
  · rename_i other
    rw [sendAck_inside, readsInside_withRead, readsInside_withRead]
    constructor
    · rintro ⟨id, length, inside⟩
      exact ⟨inside, length, id, fun expected => absurd expected other⟩
    · rintro ⟨inside, length, id, -⟩
      exact ⟨id, length, inside⟩
  · rename_i expected
    rw [Keeps.after fun _ => sendAck_inside _, acceptFragment_inside, readsInside_withRead,
      readsInside_withRead]
    constructor
    · rintro ⟨copied, id, length, inside⟩
      exact ⟨inside, length, id, fun _ => copied⟩
    · rintro ⟨inside, length, id, copied⟩
      exact ⟨copied (not_not.mp expected), id, length, inside⟩

/-- How many bytes the transfer has after the fragment of a frame. -/
def Netboot.bytesAfter (netboot : Netboot) (frame : Memory) : Nat :=
  if fragmentId frame = netboot.filePacketsTransferred then
    (netboot.fileBytesTransferred + fragmentLength frame) % 2 ^ 64
  else netboot.fileBytesTransferred

/-- If the fragment of a frame completes the file, the path of the file ends inside its file
info. -/
def Netboot.PathChecked (netboot : Netboot) (frame : Memory) (info : Block) : Prop :=
  netboot.CopyAllowed frame → netboot.bytesAfter frame = info.fileSize → PathInside info

/-- A condition that is enough, and that is needed as well when nothing is refused. -/
def Decides (fw : NetFirmware) (condition inside : Prop) : Prop :=
  (condition → inside) ∧ (fw.Grants → inside → condition)

theorem Decides.of_iff {condition inside : Prop} (same : inside ↔ condition) :
    Decides fw condition inside :=
  ⟨same.mpr, fun _ => same.mp⟩

theorem Decides.congr {condition inside condition' inside' : Prop}
    (decides : Decides fw condition inside) (conditions : condition' ↔ condition)
    (insides : inside' ↔ inside) : Decides fw condition' inside' :=
  ⟨fun holds => insides.mpr (decides.1 (conditions.mp holds)),
    fun grants holds => conditions.mpr (decides.2 grants (insides.mp holds))⟩

theorem Taken.bytes_eq {before after : Progress} (taken : Taken frame before after) :
    before.netboot.CopyAllowed frame ∧
      after.netboot.fileBytesTransferred = before.netboot.bytesAfter frame := by
  cases taken with
  | stale other =>
      exact ⟨fun expected => absurd expected other, (if_neg other).symm⟩
  | next expected copied =>
      refine ⟨fun _ => copied.allowed, ?_⟩
      rw [Netboot.bytesAfter, if_pos expected]
      rfl

/-- The handling of a fragment stays inside the packet. -/
theorem receiveFragment_inside {info : Block} (here : s.frame = frame)
    (known : s.netboot.fileInfo = some info) :
    Decides fw
      ((s.ReadsInside limit ∧ s.netboot.FragmentInside limit frame) ∧
        s.netboot.PathChecked frame info)
      ((finalState (receiveFragment fw 62 s)).ReadsInside limit) := by
  have reads : (finalState (takeFragment fw 62 s)).ReadsInside limit ↔
      s.ReadsInside limit ∧ s.netboot.FragmentInside limit frame := takeFragment_inside here
  rw [receiveFragment, bind_of_ok (get_run _), known, Block.deref, bind_of_ok (pure_run _ _)]
  cases run : takeFragment fw 62 s with
  | error reason t =>
      rw [run] at reads
      rw [bind_run, run]
      refine ⟨fun condition => reads.mpr condition.1, fun grants inside => ⟨reads.mp inside, ?_⟩⟩
      -- the fragment would have been taken if its copy had been allowed
      intro allowed
      obtain ⟨result, taken, returns⟩ := takeFragment_returns grants here allowed
      rw [run] at returns
      cases returns
  | ok result t =>
      have taken : t.ReadsInside limit ↔ _ := run ▸ reads
      obtain ⟨allowed, bytes⟩ := (takeFragment_ok run here).2.bytes_eq
      have path : s.netboot.PathChecked frame info ↔
          (t.netboot.fileBytesTransferred = info.fileSize → PathInside info) := by
        rw [show t.netboot.fileBytesTransferred = _ from bytes]
        exact ⟨fun checked => checked allowed, fun inside _ => inside⟩
      rw [bind_of_ok run, bind_of_ok (get_run _), path, ← taken]
      apply Decides.of_iff
      split
      · rename_i all
        rw [finishTransfer_inside, and_comm, forall_prop_of_true all]
      · rename_i more
        exact (and_iff_left fun all => absurd all more).symm

/-! ## Messages -/

/-- The lengths of a netboot message agree with the length of its packet. The packet holds the
command. During a transfer it holds a whole fragment, with its data if it is the next one. An
announcement is as long as it says, and not shorter than its header. -/
def MessageInside (netboot : Netboot) (frame : Memory) (n : Nat) : Prop :=
  12 ≤ n ∧
    (netboot.state = .fileTransfer → messageCmd frame = cmdFileFragment →
      ∀ info, netboot.fileInfo = some info →
        40 ≤ n ∧ (fragmentId frame = netboot.filePacketsTransferred →
          40 + fragmentLength frame ≤ n) ∧ netboot.PathChecked frame info) ∧
    (messageCmd frame = cmdFileSendInit →
      16 ≤ messageLength frame ∧ 8 + messageLength frame ≤ n)

theorem fragmentInside_iff {netboot : Netboot} {n : Nat} :
    netboot.FragmentInside (54 + n) frame ↔ 40 ≤ n ∧
      (fragmentId frame = netboot.filePacketsTransferred → 40 + fragmentLength frame ≤ n) := by
  simp only [Netboot.FragmentInside, Extent.below_iff]
  constructor
  · rintro ⟨length, id, data⟩
    exact ⟨by omega, fun expected => by have := data expected; omega⟩
  · rintro ⟨whole, data⟩
    exact ⟨by omega, by omega, fun expected => .inr (by have := data expected; omega)⟩

theorem announcementInside_iff {n : Nat} :
    (Extent.Below ⟨70, 8⟩ (54 + n) ∧ 16 ≤ messageLength frame ∧
        Extent.Below ⟨78, (messageLength frame + 2 ^ 64 - 16) % 2 ^ 64⟩ (54 + n)) ↔
      16 ≤ messageLength frame ∧ 8 + messageLength frame ≤ n := by
  simp only [Extent.below_iff]
  constructor
  · rintro ⟨read, long, copied⟩
    rw [announcedSize_eq long] at copied
    exact ⟨long, by omega⟩
  · rintro ⟨long, whole⟩
    rw [announcedSize_eq long]
    exact ⟨by omega, long, by omega⟩

theorem commandInside_iff {n : Nat} :
    (s.withRead 62 4).ReadsInside (54 + n) ↔ 12 ≤ n ∧ s.ReadsInside (54 + n) := by
  have bound : ((4 : Nat) = 0 ∨ 62 + 4 ≤ 54 + n) ↔ 12 ≤ n := by omega
  rw [readsInside_withRead, Extent.below_iff]
  exact and_congr_left' bound

/-- A fragment during a transfer. -/
theorem netbootCmdReceive_fragment_inside {n : Nat} (here : s.frame = frame)
    (transfer : s.netboot.state = .fileTransfer) (isFragment : messageCmd frame = cmdFileFragment) :
    Decides fw (s.ReadsInside (54 + n) ∧ MessageInside s.netboot frame n)
      ((finalState (netbootCmdReceive fw 62 s)).ReadsInside (54 + n)) := by
  have cmd : frame.loadLE 62 4 = cmdFileFragment := isFragment
  have notInit := not_init_of_fragment isFragment
  have handled : receiveTransfer fw 62 s = receiveFragment fw 62 (s.withRead 62 4) := by
    rw [receiveTransfer, bind_of_ok (get_run _), if_pos transfer, bind_of_ok (frameLE_run _ _ _),
      here, if_pos cmd]
  cases known : s.netboot.fileInfo with
  | none =>
      have stopped : receiveTransfer fw 62 s = .error .undefined (s.withRead 62 4) := by
        rw [handled, receiveFragment, bind_of_ok (get_run _), NetState.withRead_netboot, known]
        rfl
      have clause : MessageInside s.netboot frame n ↔ 12 ≤ n := by
        refine ⟨fun message => message.1, fun long => ⟨long, fun _ _ info missing => ?_,
          fun isInit => absurd isInit notInit⟩⟩
        exact absurd (known.symm.trans missing) (by simp)
      rw [netbootCmdReceive, bind_run, stopped, clause, and_comm]
      exact Decides.of_iff commandInside_iff
  | some info =>
      have clause : MessageInside s.netboot frame n ↔ 12 ≤ n ∧
          s.netboot.FragmentInside (54 + n) frame ∧ s.netboot.PathChecked frame info := by
        rw [fragmentInside_iff, and_assoc]
        refine and_congr_right fun _ => ⟨fun message => message.1 transfer isFragment info known,
          fun fits => ⟨fun _ _ other same => ?_, fun isInit => absurd isInit notInit⟩⟩
        obtain rfl : info = other := Option.some.inj (known.symm.trans same)
        exact fits
      have start : (s.withRead 62 4).frame = frame := here
      have decides : Decides fw (s.ReadsInside (54 + n) ∧ MessageInside s.netboot frame n)
          ((finalState (receiveFragment fw 62 (s.withRead 62 4))).ReadsInside (54 + n)) := by
        refine (receiveFragment_inside start known).congr ?_ Iff.rfl
        rw [commandInside_iff, clause, and_assoc, and_left_comm, and_assoc]
        rfl
      rw [netbootCmdReceive, bind_run, handled]
      cases run : receiveFragment fw 62 (s.withRead 62 4) with
      | error reason t =>
          rw [run] at decides
          exact decides
      | ok result t =>
          rw [run] at decides
          have same : t.frame = frame := (receiveFragment_ok run start).1
          -- the command is read once more, and there is nothing to do for a fragment
          have rest : (finalState ((do dispatch fw 62 (← frameLE 62 4)) t)) = t.withRead 62 4 := by
            rw [bind_of_ok (frameLE_run _ _ _), same, cmd]
            rfl
          refine ⟨fun condition => ?_, fun grants inside => decides.2 grants ?_⟩
          · exact rest ▸ commandInside_iff.mpr ⟨condition.2.1, decides.1 condition⟩
          · exact (commandInside_iff.mp (rest ▸ inside)).2

/-- **A netboot message stays inside its packet** if its lengths agree with the length of the
packet. -/
theorem netbootCmdReceive_inside {n : Nat} (here : s.frame = frame) :
    Decides fw (s.ReadsInside (54 + n) ∧ MessageInside s.netboot frame n)
      ((finalState (netbootCmdReceive fw 62 s)).ReadsInside (54 + n)) := by
  by_cases fragment : s.netboot.state = .fileTransfer ∧ messageCmd frame = cmdFileFragment
  · exact netbootCmdReceive_fragment_inside here fragment.1 fragment.2
  obtain ⟨u, quiet, frameSame, reads⟩ : ∃ u, receiveTransfer fw 62 s = .ok () u ∧
      u.frame = frame ∧ ((u.withRead 62 4).ReadsInside (54 + n) ↔
        12 ≤ n ∧ s.ReadsInside (54 + n)) := by
    by_cases transfer : s.netboot.state = .fileTransfer
    · refine ⟨s.withRead 62 4, ?_, here, ?_⟩
      · have other : ¬ frame.loadLE 62 4 = cmdFileFragment := fun cmd => fragment ⟨transfer, cmd⟩
        rw [receiveTransfer, bind_of_ok (get_run _), if_pos transfer,
          bind_of_ok (frameLE_run _ _ _), here, if_neg other]
        rfl
      · rw [commandInside_iff, commandInside_iff, and_self_left]
    · refine ⟨s, ?_, here, commandInside_iff⟩
      rw [receiveTransfer, bind_of_ok (get_run _), if_neg transfer]
      rfl
  rw [netbootCmdReceive, bind_of_ok quiet, bind_of_ok (frameLE_run _ _ _), frameSame]
  apply Decides.of_iff
  by_cases isInit : messageCmd frame = cmdFileSendInit
  · have clause : MessageInside s.netboot frame n ↔
        12 ≤ n ∧ 16 ≤ messageLength frame ∧ 8 + messageLength frame ≤ n :=
      and_congr_right fun _ => ⟨fun message => message.2 isInit,
        fun whole => ⟨fun transfer cmd => absurd ⟨transfer, cmd⟩ fragment, fun _ => whole⟩⟩
    have announced : (u.withRead 62 4).frame = frame := frameSame
    rw [show frame.loadLE 62 4 = cmdFileSendInit from isInit, dispatch_init,
      receiveInit_inside announced, reads, announcementInside_iff, clause, and_assoc, and_left_comm]
  · have clause : MessageInside s.netboot frame n ↔ 12 ≤ n :=
      ⟨fun message => message.1, fun long => ⟨long,
        fun transfer cmd => absurd ⟨transfer, cmd⟩ fragment, fun cmd => absurd cmd isInit⟩⟩
    have keeps : Keeps (NetState.ReadsInside (54 + n)) (dispatch fw 62 (frame.loadLE 62 4)) :=
      dispatch_keeps (fun _ _ _ => rfl) isInit
    rw [keeps, reads, clause, and_comm]

/-! ## Packets -/

/-- `length` of the IPv6 header of a frame. -/
def packetLength (frame : Memory) : Nat := htons (frame.loadLE 18 2)

/-- The lengths in a packet agree with the length of the packet: a UDP packet holds its
destination port, and the netboot message if it goes to that port, and an ICMPv6 packet holds its
type. -/
def PacketInside (netboot : Netboot) (frame : Memory) (n : Nat) : Prop :=
  (frame.loadLE 20 1 = 17 → 4 ≤ n ∧
      (htons (frame.loadLE 56 2) = 57777 → MessageInside netboot frame n)) ∧
    (frame.loadLE 20 1 = 58 → 1 ≤ n)

theorem netUdp6Receive_inside {n : Nat} (here : s.frame = frame) :
    Decides fw (s.ReadsInside (54 + n) ∧ 4 ≤ n ∧
        (htons (frame.loadLE 56 2) = 57777 → MessageInside s.netboot frame n))
      ((finalState (netUdp6Receive fw 14 54 n s)).ReadsInside (54 + n)) := by
  have bound : ((2 : Nat) = 0 ∨ 54 + 2 + 2 ≤ 54 + n) ↔ 4 ≤ n := by omega
  have port : (s.withRead (54 + 2) 2).ReadsInside (54 + n) ↔ 4 ≤ n ∧ s.ReadsInside (54 + n) := by
    rw [readsInside_withRead, Extent.below_iff]
    exact and_congr_left' bound
  rw [netUdp6Receive, bind_of_ok (frameLE_run _ _ _), here]
  by_cases netboot : htons (frame.loadLE 56 2) = 57777
  · rw [if_pos (show htons (frame.loadLE (54 + 2) 2) = 57777 from netboot)]
    have start : (s.withRead (54 + 2) 2).frame = frame := here
    refine (netbootCmdReceive_inside start).congr ?_ Iff.rfl
    rw [port, forall_prop_of_true netboot, and_assoc, and_left_comm]
    rfl
  · rw [if_neg (show ¬ htons (frame.loadLE (54 + 2) 2) = 57777 from netboot)]
    refine Decides.of_iff (port.trans ?_)
    rw [and_comm, and_iff_left fun other => absurd other netboot]

/-- What touches only the transmit buffers keeps the reads. -/
theorem inside_of_core {α : Type} {program : Net α} (keeps : Keeps NetState.core program) :
    Keeps (NetState.ReadsInside limit) program := by
  intro s
  have same := congrArg (NetState.ReadsInside limit) (keeps s)
  exact same

theorem netIcmp6Send_inside {data : Net Memory}
    (reads : Keeps (NetState.ReadsInside limit) data) (length : Nat) (daddr : Memory) :
    Keeps (NetState.ReadsInside limit) (netIcmp6Send fw data length daddr) := by
  refine (inside_of_core (netBufpoolGet_keeps _)).bind fun answer => ?_
  cases answer with
  | none => exact Keeps.pure _
  | some p =>
      refine Keeps.ite (fun _ => inside_of_core (netBufpoolReturn_keeps _)) fun _ => ?_
      refine (inside_of_core (netIp6PacketSetup_keeps _ _ _ _)).bind fun found => ?_
      refine Keeps.ite (fun _ => ?_) fun _ => inside_of_core (netBufpoolReturn_keeps _)
      refine reads.bind fun _ => Keeps.bind (Keeps.modify fun _ => rfl) fun _ => ?_
      exact inside_of_core (netEthSend_keeps _ _)

theorem netIcmp6Receive_inside {n : Nat} :
    (finalState (netIcmp6Receive fw 14 54 n s)).ReadsInside (54 + n) ↔
      s.ReadsInside (54 + n) ∧ 1 ≤ n := by
  have bound : ((1 : Nat) = 0 ∨ 54 + 1 ≤ 54 + n) ↔ 1 ≤ n := by omega
  have type : (s.withRead 54 1).ReadsInside (54 + n) ↔ s.ReadsInside (54 + n) ∧ 1 ≤ n := by
    rw [readsInside_withRead, Extent.below_iff, and_comm]
    exact and_congr_right' bound
  have reply : ∀ data, Keeps (NetState.ReadsInside (54 + n)) data → ∀ length,
      Keeps (NetState.ReadsInside (54 + n)) (do
        let src ← frameBytes (14 + 8) 16
        netIcmp6Send fw data length src) :=
    fun data reads length => (frameBytes_inside (by omega)).bind fun src =>
      netIcmp6Send_inside reads length src
  have solicitation : Keeps (NetState.ReadsInside (54 + n)) (neighborSolicitation fw 14 54 n) := by
    refine Keeps.ite (fun long => ?_) fun _ => Keeps.pure _
    refine (frameLE_inside (by omega)).bind fun code => Keeps.ite (fun _ => ?_) fun _ => Keeps.pure _
    refine (frameLE_inside (by omega)).bind fun hop => Keeps.ite (fun _ => ?_) fun _ => Keeps.pure _
    refine (frameBytes_inside (by omega)).bind fun target => Keeps.get.bind fun _ => ?_
    refine Keeps.ite (fun _ => Keeps.get.bind fun s => ?_) fun _ => Keeps.pure _
    exact reply _ (Keeps.pure _) 32
  have answer : ∀ cmd, Keeps (NetState.ReadsInside (54 + n)) (do
      if cmd = 128 then
        modify fun s => { s with frame := (s.frame.storeLE (54 + 2) 2 0).storeLE 54 1 129 }
        let src ← frameBytes (14 + 8) 16
        netIcmp6Send fw (frameBytes 54 n) n src
      else if cmd = 135 then neighborSolicitation fw 14 54 n) := by
    intro cmd
    refine Keeps.ite (fun _ => ?_) fun _ => Keeps.ite (fun _ => solicitation) fun _ => Keeps.pure _
    exact Keeps.bind (Keeps.modify fun _ => rfl) fun _ =>
      reply _ (frameBytes_inside (Nat.le_refl _)) n
  rw [netIcmp6Receive, Keeps.after answer]
  exact type

/-- The packet of a frame that was accepted. -/
theorem netPacketReceive_inside {n : Nat} (here : s.frame = frame) :
    Decides fw (s.ReadsInside (54 + n) ∧ PacketInside s.netboot frame n)
      ((finalState (netPacketReceive fw n s)).ReadsInside (54 + n)) := by
  have protocol : ∀ u : NetState, u.frame = frame → u.netboot = s.netboot →
      (u.ReadsInside (54 + n) ↔ s.ReadsInside (54 + n)) →
      Decides fw (s.ReadsInside (54 + n) ∧ PacketInside s.netboot frame n)
        ((finalState ((if frame.loadLE 20 1 = 17 then netUdp6Receive fw 14 54 n
          else if frame.loadLE 20 1 = 58 then netIcmp6Receive fw 14 54 n else pure ()) u)).ReadsInside
            (54 + n)) := by
    intro u frameSame netbootSame reads
    by_cases udp : frame.loadLE 20 1 = 17
    · have other : ¬ frame.loadLE 20 1 = 58 := by omega
      rw [if_pos udp]
      refine (netUdp6Receive_inside frameSame).congr ?_ Iff.rfl
      rw [reads, netbootSame, PacketInside, forall_prop_of_true udp]
      exact and_congr_right' (and_iff_left fun icmp => absurd icmp other)
    · rw [if_neg udp]
      by_cases icmp : frame.loadLE 20 1 = 58
      · rw [if_pos icmp]
        refine Decides.of_iff (netIcmp6Receive_inside.trans ?_)
        rw [reads, PacketInside, forall_prop_of_true icmp]
        exact and_congr_right' (and_iff_right fun isUdp => absurd isUdp udp).symm
      · rw [if_neg icmp]
        refine Decides.of_iff (reads.trans ?_)
        exact (and_iff_left ⟨fun isUdp => absurd isUdp udp, fun isIcmp => absurd isIcmp icmp⟩).symm
  subst here
  rw [netPacketReceive, bind_of_ok (frameBytes_run _ _ _), bind_of_ok (frameBytes_run _ _ _),
    bind_of_ok (modify_run _ _), bind_of_ok (frameLE_run _ _ _)]
  refine protocol _ rfl rfl ((readsInside_header (by decide)).trans ?_)
  exact (readsInside_header (by decide)).trans (readsInside_header (by decide))

/-! ## Frames -/

/-- The checks of `net_eth_receive` pass, and the frame is for this node. -/
def Accepts (s : NetState) (frame : Memory) (len : Nat) : Prop :=
  54 ≤ len ∧ frame.loadLE 12 2 = htons 0x86DD ∧ frame.loadLE 14 4 &&& 0xF0 = 0x60 ∧
    packetLength frame ≤ len - 54 ∧
    (sameBytes s.ip6LlAddr (fun index => frame (38 + index)) 16 ∨
      sameBytes s.ip6SnmAddr (fun index => frame (38 + index)) 16 ∨
      sameBytes ip6AllNodes (fun index => frame (38 + index)) 16)

theorem foreign_iff {unicast solicited all : Bool} :
    (!unicast && !solicited && !all) = true ↔ ¬ (unicast ∨ solicited ∨ all) := by
  simp [and_assoc]

/-- A frame arrives, with no reads noted yet. -/
def NetState.receiving (s : NetState) (frame : Memory) : NetState :=
  { s with frame := frame, frameReads := [], pathReads := [], infoLengths := [] }

/-- **A frame stays inside its packet exactly when the lengths in it agree.** -/
theorem netEthReceive_inside (fw : NetFirmware) (s : NetState) (frame : Memory) (len : Nat) :
    Decides fw (Accepts s frame len → PacketInside s.netboot frame (packetLength frame))
      ((finalState (netEthReceive fw len (s.receiving frame))).ReadsInside
        (54 + packetLength frame)) := by
  have rejected : ∀ {inside : Prop}, ¬ Accepts s frame len → inside →
      Decides fw (Accepts s frame len → PacketInside s.netboot frame (packetLength frame)) inside :=
    fun notAccepted holds => ⟨fun _ => holds, fun _ _ accepts => absurd accepts notAccepted⟩
  have start : (s.receiving frame).ReadsInside (54 + packetLength frame) := ⟨nofun, nofun, nofun⟩
  rw [netEthReceive]
  split
  · rename_i short
    exact rejected (fun accepts => absurd accepts.1 (Nat.not_le.mpr short)) start
  rw [bind_of_ok (frameLE_run _ _ _)]
  split
  · rename_i protocol
    exact rejected (fun accepts => protocol accepts.2.1) ((readsInside_header (by decide)).mpr start)
  rw [bind_of_ok (frameLE_run _ _ _)]
  split
  · rename_i version
    exact rejected (fun accepts => version accepts.2.2.1)
      ((readsInside_header (by decide)).mpr ((readsInside_header (by decide)).mpr start))
  rw [bind_of_ok (frameLE_run _ _ _)]
  have checked := (readsInside_header (by decide : 18 + 2 ≤ 54)).mpr
    ((readsInside_header (by decide : 14 + 4 ≤ 54)).mpr
      ((readsInside_header (by decide : 12 + 2 ≤ 54)).mpr start))
  split
  · rename_i long
    exact rejected (fun accepts => absurd accepts.2.2.2.1 (Nat.not_le.mpr long)) checked
  rw [bind_of_ok (frameBytes_run _ _ _), bind_of_ok (get_run _)]
  have read := (readsInside_header (by decide : 38 + 16 ≤ 54)).mpr checked
  split
  · rename_i other
    exact rejected (fun accepts => foreign_iff.mp other accepts.2.2.2.2) read
  · rename_i short protocol version long mine
    have accepts : Accepts s frame len :=
      ⟨Nat.not_lt.mp short, not_not.mp protocol, not_not.mp version, Nat.not_lt.mp long,
        not_not.mp fun notMine => mine (foreign_iff.mpr notMine)⟩
    have done : ∀ _ : Unit, Keeps (NetState.ReadsInside (54 + packetLength frame))
        (pure true : Net Bool) := fun _ => Keeps.pure true
    rw [Keeps.after done]
    refine (netPacketReceive_inside rfl).congr ?_ Iff.rfl
    rw [forall_prop_of_true accepts]
    exact (and_iff_right read).symm

end Inside

/-- A UDP packet to the netboot port that ends with its UDP header. -/
def emptyDatagram : Memory :=
  let frame := Memory.storeLE (fun _ => 0) 12 2 (htons 0x86DD)
  let frame := frame.storeLE 14 4 0x60
  let frame := frame.storeLE 18 2 (htons 8)
  let frame := frame.storeLE 20 1 17
  let frame := frame.overwrite 38 16 ip6AllNodes
  frame.storeLE 56 2 (htons 57777)

/-- **A packet without a message is read past its end.** The packet has eight bytes, all of them
the UDP header, and the command of a netboot message is read behind it. -/
theorem empty_datagram_read_past_end :
    ¬ ∀ (fw : NetFirmware) (s : NetState) (frame : Memory) (len : Nat), len ≤ 2048 →
      (finalState (netEthReceive fw len (s.receiving frame))).ReadsInside
        (54 + packetLength frame) := by
  intro always
  have inside := (always sampleNetFirmware sampleNetState emptyDatagram 62 (by decide)).1
  have command : ⟨62, 4⟩ ∈ (finalState (netEthReceive sampleNetFirmware 62
      (sampleNetState.receiving emptyDatagram))).frameReads := by decide +kernel
  have length : packetLength emptyDatagram = 8 := by decide +kernel
  have below := inside ⟨62, 4⟩ command 62 (by decide)
  rw [length] at below
  exact absurd below (by decide)

end VineyardLoader
