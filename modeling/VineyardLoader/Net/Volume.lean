import VineyardLoader.Net.Invariants
import VineyardLoader.Net.Transfer

/-!
# Received files on the volume

A completed file is written from its start on. The volume changes only there, so after any number
of messages it is the volume from before with the writes made to it (`receiveMessages_volume`).

A write never shortens a file. A file that was at the same path keeps what it had behind the end of
the new one, so the received file is exact unless an old one is longer
(`received_file_exact_iff`).
-/

set_option autoImplicit false

namespace VineyardLoader

/-- The files of a volume by their paths. -/
abbrev Volume := List Nat → Option (List UInt8)

/-- A write to a file, from its start on. A file that does not exist is made. -/
def Volume.write (volume : Volume) (write : FileWrite) : Volume := fun path =>
  if path = write.path then
    some (write.data ++ ((volume write.path).getD []).drop write.data.length)
  else volume path

/-- The volume of a state is an earlier one with the writes made to it since. -/
def Replays (s u : NetState) : Prop :=
  ∃ new, u.fileWrites = s.fileWrites ++ new ∧ u.volume = new.foldl Volume.write s.volume

section Runs

variable {fw : NetFirmware} {s t u : NetState} {frame : Memory} {frames : List Memory}

theorem Replays.refl (s : NetState) : Replays s s := ⟨[], (List.append_nil _).symm, rfl⟩

theorem Replays.trans (first : Replays s t) (second : Replays t u) : Replays s u := by
  obtain ⟨new, writes, volume⟩ := first
  obtain ⟨later, laterWrites, laterVolume⟩ := second
  refine ⟨new ++ later, ?_, ?_⟩
  · rw [laterWrites, writes, List.append_assoc]
  · rw [laterVolume, volume, List.foldl_append]

/-- A completed file is one more write. -/
theorem writeFile_replays (path : List Nat) (contents : List UInt8) :
    Preserves (fun u => Replays s u.outside) (fun u => Replays s u.outside)
      (writeFile fw path contents) := by
  refine Preserves.get.bind fun _ => Preserves.bind ?_ fun _ => Preserves.modify fun u replays => ?_
  · exact preserves_of_outside (fun _ holds => holds) (netErr_keeps _)
  · refine replays.trans ⟨[⟨path, contents, suppliedBytes u.accepted⟩], rfl, ?_⟩
    funext other
    rfl

/-- **The volume changes by the writes alone.** -/
theorem receiveMessage_volume (run : receiveMessage fw frame s = .ok () t) : Replays s t := by
  have sends : ∀ ack, Preserves (fun u => Replays s u.outside) (fun u => Replays s u.outside)
      (sendAck fw ack) := by
    intro ack
    have keeps : Keeps (fun u => Replays s u.outside) (sendAck fw ack) :=
      sendAck_keeps (fun _ => rfl) (fun _ _ => rfl) ack
    exact @Preserves.of_keeps _ _ _ _ _ id id _ keeps fun _ holds => holds
  have start : Replays s (NetState.outside { s with frame := frame }) := Replays.refl s
  exact (netbootCmdReceive_preserves (fun _ holds => holds) sends writeFile_replays
    { s with frame := frame } start).1 () t run

theorem receiveMessages_volume (run : receiveMessages fw frames s = .ok () t) : Replays s t := by
  induction frames generalizing s with
  | nil =>
      cases run
      exact Replays.refl _
  | cons frame frames ih =>
      obtain ⟨⟨⟩, middle, first, rest⟩ := bind_eq_ok.mp run
      exact (receiveMessage_volume first).trans (ih rest)

end Runs

/-- A written file is exact unless the old one is longer. -/
theorem Volume.write_eq_iff (volume : Volume) (write : FileWrite) :
    volume.write write write.path = some write.data ↔
      ∀ old, volume write.path = some old → old.length ≤ write.data.length := by
  rw [Volume.write, if_pos rfl, Option.some.injEq, List.append_right_eq_self, List.drop_eq_nil_iff]
  cases volume write.path with
  | none => simp
  | some old => simp

/-! ## The path of the file -/

/-- The path that `uefi_to_ucs2` makes of the path of a file info. -/
def NamesPath (info : Block) (units : List Nat) : Prop :=
  ∃ length, strlen info.path = some length ∧ uefiToUcs2 info.path (length + 1) = some units

/-- The file info holds the announcement of a message. -/
def HoldsAnnouncement (init : Memory) (info : Block) : Prop :=
  ∀ index, index < messageLength init - 16 → info.bytes index = init (78 + index)

section Paths

variable {fw : NetFirmware} {s t : NetState} {frame : Memory} {frames : List Memory} {info : Block}
  {file : List UInt8} {dataPerPacket count : Nat} {earlier : List FileWrite}

theorem openFile_path {units : List Nat} (run : openFile fw info s = .ok units t) :
    NamesPath info units := by
  obtain ⟨path, named, names, rest⟩ := bind_eq_ok.mp run
  have same : path = units := by
    rw [bind_of_ok (get_run _)] at rest
    obtain ⟨-, first, -, rest⟩ := bind_eq_ok.mp rest
    rw [bind_of_ok (get_run _)] at rest
    obtain ⟨-, second, -, rest⟩ := bind_eq_ok.mp rest
    rw [bind_of_ok (get_run _)] at rest
    obtain ⟨-, third, -, rest⟩ := bind_eq_ok.mp rest
    rw [bind_of_ok (get_run _)] at rest
    obtain ⟨-, last, -, rest⟩ := bind_eq_ok.mp rest
    cases rest
    rfl
  subst same
  rw [filePath] at names
  cases measured : strlen info.path with
  | none =>
      rw [measured] at names
      cases names
  | some length =>
      rw [measured] at names
      simp only [bind_of_ok (modify_run _ _)] at names
      obtain ⟨-, granted, -, converted⟩ := bind_eq_ok.mp names
      cases conversion : uefiToUcs2 info.path (length + 1) with
      | none =>
          rw [conversion] at converted
          cases converted
      | some units =>
          rw [conversion] at converted
          cases converted
          exact ⟨length, measured, conversion⟩

/-- A completed file is written to the path of its file info. -/
theorem finishTransfer_path (run : finishTransfer fw info s = .ok () t) :
    ∃ write, NamesPath info write.path ∧ t.fileWrites = s.fileWrites ++ [write] := by
  obtain ⟨path, opened, opens, rest⟩ := bind_eq_ok.mp run
  have same : opened.fileWrites = s.fileWrites := (openFile_keeps (fun _ _ => rfl) info).ok opens
  obtain ⟨data, read, reads, rest⟩ := bind_eq_ok.mp rest
  have readSame : read.fileWrites = opened.fileWrites := (fileData_keeps info).ok reads
  obtain ⟨⟨⟩, stored, stores, done⟩ := bind_eq_ok.mp rest
  have written : stored.fileWrites = read.fileWrites ++ [⟨path, data, suppliedBytes read.accepted⟩] :=
    congrArg Progress.fileWrites (writeFile_ok stores).2
  cases done
  refine ⟨⟨path, data, suppliedBytes read.accepted⟩, openFile_path opens, ?_⟩
  rw [← same, ← readSame]
  exact written

theorem Taken.fileWrites_eq {before after : Progress} (taken : Taken frame before after) :
    after.fileWrites = before.fileWrites := by
  cases taken with
  | stale => rfl
  | next => rfl

/-- A file is written to the path of the announced file. -/
theorem receiveMessage_path (run : receiveMessage fw frame s = .ok () t) :
    t.fileWrites = s.fileWrites ∨
      s.netboot.state = .fileTransfer ∧ ∃ info write, s.netboot.fileInfo = some info ∧
        NamesPath info write.path ∧ t.fileWrites = s.fileWrites ++ [write] := by
  rw [receiveMessage, bind_of_ok (modify_run _ _), messageStart] at run
  obtain ⟨⟨⟩, handled, handle, rest⟩ := bind_eq_ok.mp run
  have kept : t.fileWrites = handled.fileWrites := by
    have stores := Keeps.ok (Keeps.bind (frameLE_keeps (fun _ _ => rfl) 62 4) dispatch_stores) rest
    exact congrArg Prod.snd stores
  rw [kept]
  rw [receiveTransfer, bind_of_ok (get_run _)] at handle
  split at handle
  · rename_i transfer
    rw [bind_of_ok (frameLE_run _ _ _)] at handle
    split at handle
    · rw [receiveFragment, bind_of_ok (get_run _)] at handle
      obtain ⟨info, known, deref, handle⟩ := bind_eq_ok.mp handle
      obtain ⟨rfl, hasInfo⟩ := Block.deref_ok.mp deref
      obtain ⟨⟨⟩, taken, take, handle⟩ := bind_eq_ok.mp handle
      have untouched : taken.fileWrites = s.fileWrites := (takeFragment_ok take rfl).2.fileWrites_eq
      rw [bind_of_ok (get_run _)] at handle
      split at handle
      · obtain ⟨write, named, written⟩ := finishTransfer_path handle
        exact .inr ⟨transfer, info, write, hasInfo, named, untouched ▸ written⟩
      · cases handle
        exact .inl untouched
    · cases handle
      exact .inl rfl
  · cases handle
    exact .inl rfl

/-- Over a whole transfer, the file is written to the path that was announced. -/
theorem Status.path (status : Status file dataPerPacket info earlier count s.progress)
    (positive : 0 < dataPerPacket) (size : info.fileSize = file.length)
    (messages : ∀ frame ∈ frames, Expected file dataPerPacket frame)
    (located : ∀ write, s.fileWrites = earlier ++ [write] → NamesPath info write.path)
    (run : receiveMessages fw frames s = .ok () t) :
    ∀ write, t.fileWrites = earlier ++ [write] → NamesPath info write.path := by
  induction frames generalizing s count with
  | nil =>
      cases run
      exact located
  | cons frame frames ih =>
      obtain ⟨⟨⟩, middle, first, rest⟩ := bind_eq_ok.mp run
      have next := status.step positive size (messages frame List.mem_cons_self)
        (receiveMessage_outcome first)
      refine ih next (fun other member => messages other (List.mem_cons_of_mem _ member)) ?_ rest
      intro write written
      rcases receiveMessage_path first with same | ⟨transfer, known, new, hasInfo, named, writes⟩
      · exact located write (same.symm.trans written)
      · rcases status with ⟨receiving, earlierWrites⟩ | received
        · obtain rfl : known = info := Option.some.inj (hasInfo.symm.trans receiving.hasInfo)
          have nothing : s.fileWrites = earlier := earlierWrites
          rw [nothing, written] at writes
          obtain rfl : write = new := List.singleton_inj.mp (List.append_cancel_left writes)
          exact named
        · exact absurd transfer received.not_transfer

end Paths

section Whole

variable {fw : NetFirmware} {s t : NetState} {init : Memory} {frames : List Memory}
  {file path : List UInt8} {dataPerPacket : Nat}

/-- A completed transfer makes one write, of the whole file, to the path that was announced. -/
theorem completed_write (reached : Reached fw (fun _ _ => True) s)
    (idle : s.netboot.state ≠ .fileTransfer) (nonempty : file ≠ []) (positive : 0 < dataPerPacket)
    (announces : Announces init file dataPerPacket path)
    (messages : ∀ frame ∈ frames, Genuine file dataPerPacket frame ∨ Unrelated frame)
    (complete : acceptedCount frames = chunkCount file dataPerPacket)
    (run : receiveMessages fw (init :: frames) s = .ok () t) :
    ∃ info write, HoldsAnnouncement init info ∧ NamesPath info write.path ∧
      t.fileWrites = s.fileWrites ++ [write] ∧ write.data = file := by
  obtain ⟨⟨⟩, started, start, rest⟩ := bind_eq_ok.mp run
  obtain ⟨info, size, -, status, -, announced⟩ := announces.status nonempty
    (reached_idleReset reached) idle (receiveMessage_outcome start)
  rcases status.run positive size messages rest with ⟨receiving, -⟩ | received
  · have missing := (lt_chunkCount_iff positive).mpr receiving.more
    exact absurd complete (Nat.ne_of_lt missing)
  · obtain ⟨write, writes, data⟩ := received.written
    refine ⟨info, write, announced, ?_, writes, data⟩
    refine status.path positive size messages (fun other already => ?_) rest write writes
    -- the announcement itself writes nothing
    rcases receiveMessage_path start with same | ⟨transfer, -⟩
    · have lengths := congrArg List.length (same.symm.trans already)
      rw [List.length_append, List.length_singleton] at lengths
      exact absurd lengths (Nat.ne_of_lt (Nat.lt_succ_self _))
    · exact absurd transfer idle

/-- **The received file on the volume.** After a completed transfer the file at the path that was
announced is the file that was sent, exactly when no longer file was there before. -/
theorem received_file_exact_iff (reached : Reached fw (fun _ _ => True) s)
    (idle : s.netboot.state ≠ .fileTransfer) (nonempty : file ≠ []) (positive : 0 < dataPerPacket)
    (announces : Announces init file dataPerPacket path)
    (messages : ∀ frame ∈ frames, Genuine file dataPerPacket frame ∨ Unrelated frame)
    (complete : acceptedCount frames = chunkCount file dataPerPacket)
    (run : receiveMessages fw (init :: frames) s = .ok () t) :
    ∃ info write, HoldsAnnouncement init info ∧ NamesPath info write.path ∧
      t.fileWrites = s.fileWrites ++ [write] ∧
      (t.volume write.path = some file ↔
        ∀ old, s.volume write.path = some old → old.length ≤ file.length) := by
  obtain ⟨info, write, announced, named, writes, rfl⟩ :=
    completed_write reached idle nonempty positive announces messages complete run
  obtain ⟨new, replayed, volume⟩ := receiveMessages_volume run
  obtain rfl : new = [write] := List.append_cancel_left (replayed.symm.trans writes)
  refine ⟨info, write, announced, named, writes, ?_⟩
  rw [volume]
  exact Volume.write_eq_iff s.volume write

end Whole

/-- The volume has the same file at every path. -/
def sampleVolume (contents : List UInt8) : NetState :=
  { sampleNetState with volume := fun _ => some contents }

/-- The fragments of a file of three bytes in order. -/
def sampleFragments : List Memory := [fragmentFrame 0 [7, 8], fragmentFrame 1 [9]]

theorem sampleFragments_genuine :
    ∀ frame ∈ sampleFragments, Genuine [7, 8, 9] 2 frame ∨ Unrelated frame := by
  intro frame member
  refine .inl (fragmentFrame_genuine frame ?_)
  simp only [sampleFragments, List.mem_cons, List.not_mem_nil, or_false] at member ⊢
  exact member.symm

theorem received_file_exact_iff_sample :
    ∃ t, receiveMessages sampleNetFirmware (initFrame 3 2 2 [0x61, 0] :: sampleFragments)
        (sampleVolume [1, 2]) = .ok () t ∧ ∃ path, t.volume path = some [7, 8, 9] := by
  have run := ok_of_returned (by decide +kernel : returned (receiveMessages sampleNetFirmware
    (initFrame 3 2 2 [0x61, 0] :: sampleFragments) (sampleVolume [1, 2])) = true)
  obtain ⟨info, write, -, -, -, exact⟩ := received_file_exact_iff (.start rfl) (by decide) (by decide)
    (by decide) initFrame_announces sampleFragments_genuine (by decide +kernel) run
  refine ⟨_, run, write.path, exact.mpr fun old known => ?_⟩
  cases known
  decide

/-- A longer file at the same path keeps its end. -/
theorem longer_file_keeps_end :
    ¬ ∀ (fw : NetFirmware) (s t : NetState) (init : Memory) (frames : List Memory)
        (file path : List UInt8) (dataPerPacket : Nat), Reached fw (fun _ _ => True) s →
      s.netboot.state ≠ .fileTransfer → file ≠ [] → 0 < dataPerPacket →
      Announces init file dataPerPacket path →
      (∀ frame ∈ frames, Genuine file dataPerPacket frame ∨ Unrelated frame) →
      acceptedCount frames = chunkCount file dataPerPacket →
      receiveMessages fw (init :: frames) s = .ok () t →
      ∃ info write, HoldsAnnouncement init info ∧ NamesPath info write.path ∧
        t.fileWrites = s.fileWrites ++ [write] ∧ t.volume write.path = some file := by
  intro always
  have run := ok_of_returned (by decide +kernel : returned (receiveMessages sampleNetFirmware
    (initFrame 3 2 2 [0x61, 0] :: sampleFragments) (sampleVolume [1, 2, 3, 4])) = true)
  obtain ⟨-, write, -, -, writes, exact⟩ := always _ _ _ _ _ _ _ _ (.start rfl) (by decide)
    (by decide) (by decide) initFrame_announces sampleFragments_genuine (by decide +kernel) run
  obtain ⟨-, other, -, -, same, data⟩ := completed_write (.start rfl) (by decide) (by decide)
    (by decide) initFrame_announces sampleFragments_genuine (by decide +kernel) run
  obtain ⟨new, replayed, volume⟩ := receiveMessages_volume run
  obtain rfl : new = [other] := List.append_cancel_left (replayed.symm.trans same)
  obtain rfl : write = other :=
    List.singleton_inj.mp (List.append_cancel_left (writes.symm.trans same))
  rw [volume, ← data] at exact
  have short := (Volume.write_eq_iff _ _).mp exact [1, 2, 3, 4] rfl
  rw [data] at short
  exact absurd short (by decide)

end VineyardLoader
