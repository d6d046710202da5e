import VineyardLoader.Loader.HandOff

/-!
# The check of the header

`elf_header_check` stands between the kernel file and the segments. A file that is not an
executable of the machine should stop the loader there, before anything is mapped.

The header that is checked is the first 64 bytes of the file, since the copy of the file has
been read and the position set back (`loaderKernelOpen_ok`). The check of the magic bytes
stops the loader only when all four of them are wrong (`elfHeaderCheck_ok`), so the gate holds
exactly for the files that do not have some of them right and some wrong
(`kernel_gated_iff`).
-/

set_option autoImplicit false

namespace VineyardLoader

/-! ## Executables -/

/-- The bytes 7F 45 4C 46. -/
def HasMagic (bytes : Memory) : Prop :=
  bytes 0 = 0x7F ∧ bytes 1 = 0x45 ∧ bytes 2 = 0x4C ∧ bytes 3 = 0x46

instance (bytes : Memory) : Decidable (HasMagic bytes) := inferInstanceAs (Decidable (_ ∧ _))

/-- One of the bytes 7F 45 4C 46 in its place. -/
def HasMagicByte (bytes : Memory) : Prop :=
  bytes 0 = 0x7F ∨ bytes 1 = 0x45 ∨ bytes 2 = 0x4C ∨ bytes 3 = 0x46

instance (bytes : Memory) : Decidable (HasMagicByte bytes) := inferInstanceAs (Decidable (_ ∨ _))

/-- The rest of the header: 64 bits, little-endian, version 1, System V, an executable, for
x86-64. -/
def HasKernelFields (bytes : Memory) : Prop :=
  bytes 4 = 2 ∧ bytes 5 = 1 ∧ bytes 6 = 1 ∧ bytes 7 = 0 ∧
    bytes.loadLE 16 2 = 2 ∧ bytes.loadLE 18 2 = 62

instance (bytes : Memory) : Decidable (HasKernelFields bytes) :=
  inferInstanceAs (Decidable (_ ∧ _))

/-- A file that is to be loaded. -/
def IsKernelFile (file : List UInt8) : Prop :=
  HasMagic (bytesOf file) ∧ HasKernelFields (bytesOf file)

instance (file : List UInt8) : Decidable (IsKernelFile file) := inferInstanceAs (Decidable (_ ∧ _))

section Agree

variable {first second : Memory} (agree : ∀ index, index < 64 → first index = second index)
include agree

theorem hasMagicByte_congr : HasMagicByte first ↔ HasMagicByte second := by
  unfold HasMagicByte
  rw [agree 0 (by decide), agree 1 (by decide), agree 2 (by decide), agree 3 (by decide)]

theorem hasKernelFields_congr : HasKernelFields first ↔ HasKernelFields second := by
  have word : ∀ start, start + 2 ≤ 64 → first.loadLE start 2 = second.loadLE start 2 := by
    intro start inside
    exact Memory.loadLE_congr fun index bound => agree _ (by omega)
  unfold HasKernelFields
  rw [agree 4 (by decide), agree 5 (by decide), agree 6 (by decide), agree 7 (by decide),
    word 16 (by decide), word 18 (by decide)]

end Agree

/-! ## The check -/

variable {fw : Firmware} {platform : Platform} {machine middle final : Machine} {opened : Opened}
  {bytes : Memory}

/-- The check passes when one magic byte and all of the other fields are right. -/
theorem elfHeaderCheck_ok :
    elfHeaderCheck (readEhdr bytes) machine = .ok () final ↔
      (HasMagicByte bytes ∧ HasKernelFields bytes) ∧ final = machine := by
  have magicByte : ¬ (bytes 0 ≠ 0x7F ∧ bytes 1 ≠ 0x45 ∧ bytes 2 ≠ 0x4C ∧ bytes 3 ≠ 0x46) ↔
      HasMagicByte bytes := by
    unfold HasMagicByte
    tauto
  constructor
  · intro run
    obtain ⟨magic, run⟩ := check_eq_ok.mp run
    obtain ⟨classOf, run⟩ := check_eq_ok.mp run
    obtain ⟨data, run⟩ := check_eq_ok.mp run
    obtain ⟨version, run⟩ := check_eq_ok.mp run
    obtain ⟨osabi, run⟩ := check_eq_ok.mp run
    obtain ⟨type, run⟩ := check_eq_ok.mp run
    split at run
    · cases run
    · rename_i machineType
      cases run
      exact ⟨⟨magicByte.mp magic, not_not.mp classOf, not_not.mp data, not_not.mp version,
        not_not.mp osabi, not_not.mp type, not_not.mp machineType⟩, rfl⟩
  · rintro ⟨⟨magic, classOf, data, version, osabi, type, machineType⟩, rfl⟩
    refine check_eq_ok.mpr ⟨magicByte.mpr magic, ?_⟩
    refine check_eq_ok.mpr ⟨not_not.mpr classOf, check_eq_ok.mpr ⟨not_not.mpr data, ?_⟩⟩
    refine check_eq_ok.mpr ⟨not_not.mpr version, check_eq_ok.mpr ⟨not_not.mpr osabi, ?_⟩⟩
    refine check_eq_ok.mpr ⟨not_not.mpr type, ?_⟩
    exact congrFun (if_neg (not_not.mpr machineType)) _

/-- The check only stops in a panic, with the machine as it was. -/
theorem elfHeaderCheck_stops (header : Elf64Ehdr) :
    StopsWith (fun reason => ∃ message, reason = .panic message) (elfHeaderCheck header) := by
  have panics : ∀ message, ∃ other, Halt.panic message = .panic other :=
    fun message => ⟨message, rfl⟩
  refine StopsWith.check (panics _) (StopsWith.check (panics _) ?_)
  refine StopsWith.check (panics _) (StopsWith.check (panics _) ?_)
  refine StopsWith.check (panics _) (StopsWith.check (panics _) ?_)
  exact StopsWith.ite (fun _ => StopsWith.throw (panics _)) fun _ => StopsWith.pure _

/-! ## The header that is checked -/

theorem setPosition_run (position : Nat) :
    setPosition fw position machine = .ok () { machine with
      position := if position = 2 ^ 64 - 1 then fw.kernel.length else position } := rfl

/-- A copy of the file leaves the position at the start. -/
theorem fsRead_position {length offset : Nat} {buffer result : Block}
    (run : fsRead fw length offset buffer machine = .ok result final) : final.position = 0 := by
  obtain ⟨⟨⟩, moved, -, run⟩ := bind_eq_ok.mp run
  obtain ⟨⟨status, data⟩, read, -, run⟩ := bind_eq_ok.mp run
  obtain ⟨⟨⟩, checked, -, run⟩ := bind_eq_ok.mp run
  rw [bind_of_ok (setPosition_run 0)] at run
  cases run
  rfl

/-- At the start of the file, the header is the first bytes of the file over what was there. -/
theorem loaderParseHeader_run (start : machine.position = 0) :
    loaderParseHeader fw platform machine =
      .ok (readEhdr (platform.stackHeader.overwrite 0 (fw.kernel.take 64).length
        (bytesOf (fw.kernel.take 64)))) { machine with position := (fw.kernel.take 64).length } := by
  have inside : ¬ fw.kernel.length < machine.position := by omega
  have read : readFile fw 64 machine = .ok (.success, fw.kernel.take 64)
      { machine with position := (fw.kernel.take 64).length } := by
    rw [readFile, bind_of_ok (get_run _), if_neg inside, start, List.drop_zero, Nat.zero_add]
    rfl
  rw [loaderParseHeader, bind_of_ok read]
  rfl

/-- The first stage: from new tables on, memory is left alone, and the header is that of the
file. -/
theorem loaderKernelOpen_ok (opens : loaderKernelOpen fw platform machine = .ok opened middle) :
    Refines middle opened.pml4 (fun _ => none) ∧
      opened.header = readEhdr (platform.stackHeader.overwrite 0 (fw.kernel.take 64).length
        (bytesOf (fw.kernel.take 64))) := by
  obtain ⟨pml4, first, setup, run⟩ := bind_eq_ok.mp opens
  obtain ⟨⟨⟩, second, volume, run⟩ := bind_eq_ok.mp run
  obtain ⟨fileInfo, third, info, run⟩ := bind_eq_ok.mp run
  obtain ⟨block, fourth, alloc, run⟩ := bind_eq_ok.mp run
  obtain ⟨copy, fifth, read, run⟩ := bind_eq_ok.mp run
  rw [bind_of_ok (loaderParseHeader_run (fsRead_position read))] at run
  cases run
  have kept : fifth.store = first.store := calc
    fifth.store = fourth.store := (fsRead_keeps (fun _ _ => rfl) _ _ _).ok read
    _ = third.store := (malloc_keeps (fun _ _ => rfl) _).ok alloc
    _ = second.store := (fsGetFileInfo_keeps fun _ _ => rfl).ok info
    _ = first.store := fsOpen_keeps.ok volume
  exact ⟨(loaderPagingSetup_refines setup).of_store kept, rfl⟩

/-- The check leaves the machine alone. -/
theorem elfHeaderCheck_state {checked : Machine}
    (opens : loaderKernelOpen fw platform machine = .ok opened middle)
    (check : elfHeaderCheck opened.header middle = .ok () checked) : checked = middle := by
  rw [(loaderKernelOpen_ok opens).2, elfHeaderCheck_ok] at check
  exact check.2

/-- A run that reached the jump has passed the check. -/
theorem loaderKernel_passes {jump : Jump}
    (opens : loaderKernelOpen fw platform machine = .ok opened middle)
    (run : loaderKernel fw platform machine = .ok jump final) :
    elfHeaderCheck opened.header middle = .ok () middle := by
  rw [loaderKernel_eq, bind_of_ok opens] at run
  obtain ⟨⟨⟩, checked, check, -⟩ := bind_eq_ok.mp run
  obtain rfl := elfHeaderCheck_state opens check
  exact check

/-- A run that reached the jump came from the first stages to the memory map. -/
theorem loaderKernel_reaches {loaded before : Machine} {objects : Objects} {jump : Jump}
    (opens : loaderKernelOpen fw platform machine = .ok opened middle)
    (loads : loaderKernelPhdrs fw opened.header opened.pml4 middle = .ok () loaded)
    (sets : loaderKernelSetUp fw platform opened.pml4 loaded = .ok objects before)
    (run : loaderKernel fw platform machine = .ok jump final) :
    ∃ status after, efiGetMemoryMap fw platform (opened.jump platform objects).info opened.pml4
        before = .ok (status, after) final ∧
      { opened.jump platform objects with info := after } = jump := by
  have passes := loaderKernel_passes opens run
  rw [loaderKernel_eq, bind_of_ok opens, bind_of_ok passes, loaderKernelLoad, bind_of_ok loads,
    bind_of_ok sets] at run
  obtain ⟨⟨status, after⟩, last, fetch, done⟩ := bind_eq_ok.mp run
  cases done
  exact ⟨status, after, fetch, rfl⟩

/-- The header of a long enough file is the first 64 bytes of the file. -/
theorem headerBytes_eq (long : 64 ≤ fw.kernel.length) {index : Nat} (bound : index < 64) :
    platform.stackHeader.overwrite 0 (fw.kernel.take 64).length (bytesOf (fw.kernel.take 64)) index =
      bytesOf fw.kernel index := by
  have length : (fw.kernel.take 64).length = 64 := by
    rw [List.length_take]
    omega
  rw [platform.stackHeader.overwrite_inside (by omega) (by omega), Nat.sub_zero, bytesOf, bytesOf]
  simp [List.getD, bound]

/-! ## The gate -/

/-- The check of the header as a gate: it lets through the kernel files, which are then
loaded, and for every other file the loader panics with nothing mapped. -/
structure Gated (fw : Firmware) (platform : Platform) (machine middle : Machine)
    (opened : Opened) : Prop where
  passes : elfHeaderCheck opened.header middle = .ok () middle ↔ IsKernelFile fw.kernel
  loads : IsKernelFile fw.kernel →
    loaderKernel fw platform machine = loaderKernelLoad fw platform opened middle
  stops : ¬ IsKernelFile fw.kernel →
    ∃ message, loaderKernel fw platform machine = .error (.panic message) middle ∧
      ∀ v, slice v 39 ≠ selfMapSlot → walk middle.mem opened.pml4 v = none

/-- **Only executables are loaded.** Let the kernel file have at least 64 bytes, and let the
loader come to the check of the header. The check is the gate it is meant to be exactly when
the file does not have the right fields with some of the magic bytes right and some wrong. -/
theorem kernel_gated_iff (fw : Firmware) (platform : Platform) (machine middle : Machine)
    (opened : Opened) (long : 64 ≤ fw.kernel.length)
    (opens : loaderKernelOpen fw platform machine = .ok opened middle) :
    Gated fw platform machine middle opened ↔
      ¬ (HasKernelFields (bytesOf fw.kernel) ∧ HasMagicByte (bytesOf fw.kernel) ∧
        ¬ HasMagic (bytesOf fw.kernel)) := by
  obtain ⟨empty, header⟩ := loaderKernelOpen_ok opens
  have agree := fun index => @headerBytes_eq fw platform long index
  have passes : elfHeaderCheck opened.header middle = .ok () middle ↔
      HasMagicByte (bytesOf fw.kernel) ∧ HasKernelFields (bytesOf fw.kernel) := by
    rw [header, elfHeaderCheck_ok, hasMagicByte_congr agree, hasKernelFields_congr agree]
    exact and_iff_left rfl
  have stages : loaderKernel fw platform machine = (do
      elfHeaderCheck opened.header
      loaderKernelLoad fw platform opened) middle := by
    rw [loaderKernel_eq, bind_of_ok opens]
  have magicByte : HasMagic (bytesOf fw.kernel) → HasMagicByte (bytesOf fw.kernel) :=
    fun magic => .inl magic.1
  constructor
  · rintro gated ⟨fields, oneByte, wrong⟩
    exact wrong (gated.passes.mp (passes.mpr ⟨oneByte, fields⟩)).1
  · intro whole
    have exactly : HasMagicByte (bytesOf fw.kernel) ∧ HasKernelFields (bytesOf fw.kernel) ↔
        IsKernelFile fw.kernel := by
      unfold IsKernelFile
      tauto
    refine ⟨passes.trans exactly, fun isKernel => ?_, fun notKernel => ?_⟩
    · rw [stages, bind_of_ok ((passes.trans exactly).mpr isKernel)]
    · cases check : elfHeaderCheck opened.header middle with
      | ok value final =>
          rw [header, elfHeaderCheck_ok, hasMagicByte_congr agree, hasKernelFields_congr agree]
            at check
          exact absurd (exactly.mp check.1) notKernel
      | error reason stopped =>
          obtain ⟨⟨message, rfl⟩, rfl⟩ := elfHeaderCheck_stops _ _ _ _ check
          refine ⟨message, ?_, fun v inner => ?_⟩
          · rw [stages, bind_run, check]
          · rw [empty.walk_eq inner]
            rfl

theorem kernel_gated_sample :
    ∃ opened middle,
      loaderKernelOpen sampleFirmware samplePlatform freshMachine = .ok opened middle ∧
      64 ≤ sampleFirmware.kernel.length ∧ IsKernelFile sampleFirmware.kernel ∧
      Gated sampleFirmware samplePlatform freshMachine middle opened := by
  have runs : returned (loaderKernelOpen sampleFirmware samplePlatform freshMachine) = true := by
    decide +kernel
  have long : 64 ≤ sampleFirmware.kernel.length := by decide +kernel
  have isKernel : IsKernelFile sampleFirmware.kernel := by decide +kernel
  obtain ⟨opened, middle, opens⟩ := exists_ok_of_returned runs
  refine ⟨opened, middle, opens, long, isKernel, ?_⟩
  exact (kernel_gated_iff sampleFirmware samplePlatform freshMachine middle opened long opens).mpr
    fun partly => partly.2.2 isKernel.1

/-- The sample kernel with three of the four magic bytes replaced by zero. -/
def oneMagicByteFirmware : Firmware :=
  bumpFirmware ([0x7F, 0, 0, 0] ++ sampleFirmware.kernel.drop 4) (by decide +kernel)

/-- A file with one right magic byte passes the check, and the loader jumps into it. -/
theorem oneMagicByte_started :
    64 ≤ oneMagicByteFirmware.kernel.length ∧ ¬ IsKernelFile oneMagicByteFirmware.kernel ∧
      ∃ opened middle jump final,
        loaderKernelOpen oneMagicByteFirmware samplePlatform freshMachine = .ok opened middle ∧
        elfHeaderCheck opened.header middle = .ok () middle ∧
        loaderKernel oneMagicByteFirmware samplePlatform freshMachine = .ok jump final ∧
        ¬ Gated oneMagicByteFirmware samplePlatform freshMachine middle opened := by
  have runs : returned (loaderKernel oneMagicByteFirmware samplePlatform freshMachine) = true := by
    decide +kernel
  have notKernel : ¬ IsKernelFile oneMagicByteFirmware.kernel := by decide +kernel
  refine ⟨by decide +kernel, notKernel, ?_⟩
  obtain ⟨jump, final, run⟩ := exists_ok_of_returned runs
  obtain ⟨opened, middle, opens, -⟩ := bind_eq_ok.mp (loaderKernel_eq ▸ run)
  have check := loaderKernel_passes opens run
  exact ⟨opened, middle, jump, final, opens, check, run,
    fun gated => notKernel (gated.passes.mp check)⟩

/-! ## Runs of all stages -/

/-- A run to the jump on a fresh machine, stage by stage. -/
structure EntryRun (fw : Firmware) (platform : Platform) (segments : List Elf64Phdr)
    (opened : Opened) (phdrs : Block) (objects : Objects) (jump : Jump)
    (middle parsed loaded before final : Machine) : Prop where
  opens : loaderKernelOpen fw platform freshMachine = .ok opened middle
  parse : loaderParsePhdrs fw opened.header middle = .ok phdrs parsed
  table : loadSegments opened.header phdrs = segments
  loads : loaderKernelPhdrs fw opened.header opened.pml4 middle = .ok () loaded
  sets : loaderKernelSetUp fw platform opened.pml4 loaded = .ok objects before
  small : before.memoryMap.bytes.length ≤ physicalEnd
  run : loaderKernel fw platform freshMachine = .ok jump final

/-- Whether the kernel is entered on a fresh machine, with the given segments and a test
passed by what the stages leave. -/
def entersKernel (fw : Firmware) (platform : Platform) (segments : List Elf64Phdr)
    (test : Objects → Jump → Machine → Machine → Machine → Bool) : Bool :=
  match loaderKernelOpen fw platform freshMachine with
  | .error _ _ => false
  | .ok opened middle =>
    match elfHeaderCheck opened.header middle, loaderParsePhdrs fw opened.header middle,
      loaderKernelPhdrs fw opened.header opened.pml4 middle with
    | .ok _ _, .ok phdrs _, .ok _ loaded =>
      match loaderKernelSetUp fw platform opened.pml4 loaded with
      | .error _ _ => false
      | .ok objects before =>
        let jump := opened.jump platform objects
        match efiGetMemoryMap fw platform jump.info jump.pml4 before with
        | .error _ _ => false
        | .ok (_, info) final =>
          loadSegments opened.header phdrs == segments &&
            decide (before.memoryMap.bytes.length ≤ physicalEnd) &&
              test objects { jump with info := info } loaded before final
    | _, _, _ => false

theorem entersKernel_ok {segments : List Elf64Phdr}
    {test : Objects → Jump → Machine → Machine → Machine → Bool}
    (check : entersKernel fw platform segments test = true) :
    ∃ opened phdrs objects jump middle parsed loaded before final,
      EntryRun fw platform segments opened phdrs objects jump middle parsed loaded before final ∧
        test objects jump loaded before final = true := by
  unfold entersKernel at check
  split at check
  · cases check
  rename_i opened middle opens
  split at check
  · rename_i passed checked phdrs parsed done loaded passes parse loads
    split at check
    · cases check
    rename_i objects before sets
    dsimp only at check
    split at check
    · cases check
    rename_i status info final fetch
    rw [Bool.and_eq_true, Bool.and_eq_true, beq_iff_eq, decide_eq_true_eq] at check
    obtain ⟨⟨table, small⟩, tested⟩ := check
    obtain rfl := elfHeaderCheck_state opens passes
    refine ⟨opened, phdrs, objects, _, checked, parsed, loaded, before, final,
      ⟨opens, parse, table, loads, sets, small, ?_⟩, tested⟩
    rw [loaderKernel_eq, bind_of_ok opens, bind_of_ok passes, loaderKernelLoad, bind_of_ok loads,
      bind_of_ok sets, bind_of_ok fetch]
    rfl
  · cases check

end VineyardLoader
