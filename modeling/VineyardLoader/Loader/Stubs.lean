import VineyardLoader.Foundation.Assembly
import VineyardLoader.Loader.KernelImage

/-!
# The assembly of the loader

Five stubs give the program access to control registers and model-specific registers, and a sixth
leaves the loader for the kernel. The stubs are called in the convention of the firmware: the first
two arguments are in `rcx` and `rdx`, the result is in `rax`. Each one returns to its caller, keeps
the stack and the registers that it must keep, and does what its name says (`stubs_implement`).

The last stub changes the page tables under its own feet. It goes on because the new tables map the
image of the loader to itself, and it arrives at the entry point of the kernel with the stack pointer
at the end of the stack (`elfJumpToKernel_enters`).
-/

set_option autoImplicit false

namespace VineyardLoader

/-! ## The registers -/

/-- The registers that the stubs are about. -/
structure Registers where
  cr0 : BitVec 64
  cr3 : BitVec 64
  msr : BitVec 32 → BitVec 64

def Cpu.registers (cpu : Cpu) : Registers := ⟨cpu.cr 0, cpu.cr 3, cpu.msr⟩

/-- A model-specific register is written. -/
def Registers.withMsr (registers : Registers) (msr : BitVec 32) (value : BitVec 64) : Registers :=
  { registers with msr := fun other => if other = msr then value else registers.msr other }

/-! ## The stubs -/

/-- `efi_cr0_read`. -/
def efiCr0Read : List Instr := framed [.readCr .rax 0]

/-- `efi_cr0_write`. -/
def efiCr0Write : List Instr := framed [.writeCr 0 .rcx]

/-- `efi_cr3_read`. -/
def efiCr3Read : List Instr := framed [.readCr .rax 3]

/-- `efi_msr_write`. -/
def efiMsrWrite : List Instr := framed [.movLow .rax .rdx, .shr .rdx 32, .wrmsr]

/-- `efi_msr_read`. -/
def efiMsrRead : List Instr :=
  framed [.xor .rax .rax, .xor .rdx .rdx, .rdmsr, .shl .rdx 32, .or .rax .rdx]

/-- What a stub does to the registers, and its result, from its two arguments. -/
abbrev StubEffect := BitVec 64 → BitVec 64 → Registers → Option (BitVec 64) × Registers

/-- The code does what is expected of a call of a stub. -/
structure Implements (code : List Instr) (effect : StubEffect) (cpu : Cpu) (behind : BitVec 64)
    (after : Cpu) : Prop where
  returns : after.rip = behind
  rsp : after.reg .rsp = cpu.reg .rsp
  rbp : after.reg .rbp = cpu.reg .rbp
  rsi : after.reg .rsi = cpu.reg .rsi
  registers : after.registers = (effect (cpu.reg .rcx) (cpu.reg .rdx) cpu.registers).2
  result : ∀ value, (effect (cpu.reg .rcx) (cpu.reg .rdx) cpu.registers).1 = some value →
    after.reg .rax = value
  mem : ∀ address, address < (cpu.reg .rsp).toNat - 16 ∨ (cpu.reg .rsp).toNat ≤ address →
    after.mem address = cpu.mem address

/-- The stubs, with what they are for. -/
def stubs : List (List Instr × StubEffect) :=
  [(efiCr0Read, fun _ _ registers => (some registers.cr0, registers)),
    (efiCr0Write, fun value _ registers => (none, { registers with cr0 := value })),
    (efiCr3Read, fun _ _ registers => (some registers.cr3, registers)),
    (efiMsrWrite, fun msr value registers => (none, registers.withMsr (msr.setWidth 32) value)),
    (efiMsrRead, fun msr _ registers => (some (registers.msr (msr.setWidth 32)), registers))]

section Stubs

variable {body : List Instr} {effect : StubEffect}

/-- A stub in the usual frame does what its body does to the processor that enters it. -/
theorem framed_implements (plain : ∀ instr ∈ body, instr.Plain) (cpu : Cpu) (behind : BitVec 64)
    (room : 16 ≤ (cpu.reg .rsp).toNat)
    (rsi : (execAll body (cpu.entered behind)).reg .rsi = cpu.reg .rsi)
    (registers : (execAll body (cpu.entered behind)).registers =
      (effect (cpu.reg .rcx) (cpu.reg .rdx) cpu.registers).2)
    (result : ∀ value, (effect (cpu.reg .rcx) (cpu.reg .rdx) cpu.registers).1 = some value →
      (execAll body (cpu.entered behind)).reg .rax = value) :
    Implements (framed body) effect cpu behind (cpu.call (framed body) behind) := by
  have returned := framed_returns plain cpu behind room
  refine ⟨returned.rip, returned.rsp, returned.rbp, ?_, ?_, ?_, returned.mem⟩
  · rw [returned.others .rsi (by decide) (by decide), rsi]
  · rw [← registers, Cpu.registers, returned.cr, returned.msr]
    rfl
  · intro value expected
    rw [returned.others .rax (by decide) (by decide), result value expected]

end Stubs

/-- A number is put together from its halves, side by side. -/
theorem halves_append (value : BitVec 64) :
    (value >>> 32).setWidth 32 ++ ((value.setWidth 32).setWidth 64).setWidth 32 = value := by
  apply BitVec.eq_of_getLsbD_eq
  intro i inside
  rw [BitVec.getLsbD_append]
  by_cases low : i < 32
  · simp [low]
  · have high : i - 32 < 32 := by omega
    have place : 32 + (i - 32) = i := by omega
    simp [low, high, place]

/-- A number is put together from its halves, one over the other. -/
theorem halves_or (value : BitVec 64) :
    (value.setWidth 32).setWidth 64 ||| (value >>> 32) <<< 32 = value := by
  apply BitVec.eq_of_getLsbD_eq
  intro i inside
  rw [BitVec.getLsbD_or, BitVec.getLsbD_shiftLeft, BitVec.getLsbD_ushiftRight,
    BitVec.getLsbD_setWidth, BitVec.getLsbD_setWidth]
  by_cases low : i < 32
  · simp [low, inside]
  · have place : 32 + (i - 32) = i := by omega
    simp [low, inside, place]

/-- **Every stub does what its name says**, whatever the processor it is called on. -/
theorem stubs_implement (cpu : Cpu) (behind : BitVec 64) (room : 16 ≤ (cpu.reg .rsp).toNat) :
    ∀ stub ∈ stubs, Implements stub.1 stub.2 cpu behind (cpu.call stub.1 behind) := by
  simp only [stubs, List.forall_mem_cons, List.not_mem_nil, false_imp_iff, implies_true, and_true]
  refine ⟨?_, ?_, ?_, ?_, ?_⟩
  · refine framed_implements (by decide) cpu behind room rfl rfl ?_
    rintro value ⟨⟩
    rfl
  · exact framed_implements (by decide) cpu behind room rfl rfl nofun
  · refine framed_implements (by decide) cpu behind room rfl rfl ?_
    rintro value ⟨⟩
    rfl
  · refine framed_implements (by decide) cpu behind room rfl ?_ nofun
    have written : (cpu.reg .rdx >>> 32).setWidth 32 ++
        (((cpu.reg .rdx).setWidth 32).setWidth 64).setWidth 32 = cpu.reg .rdx := halves_append _
    rw [Registers.withMsr, ← written]
    rfl
  · refine framed_implements (by decide) cpu behind room rfl rfl ?_
    rintro value ⟨⟩
    exact halves_or _

def sampleCpu : Cpu where
  reg reg := if reg = .rsp then 0x7000 else 0x10
  rip := 0x1000
  mem _ := 0
  cr _ := 1
  msr _ := 2

/-- A model-specific register is written, and the register of the page tables is read. -/
theorem stubs_implement_sample :
    Implements efiMsrWrite
        (fun msr value registers => (none, registers.withMsr (msr.setWidth 32) value))
        sampleCpu 0x1005 (sampleCpu.call efiMsrWrite 0x1005) ∧
      (sampleCpu.call efiCr3Read 0x1005).reg .rax = 1 := by
  have implements := stubs_implement sampleCpu 0x1005 (by decide)
  constructor
  · exact implements (efiMsrWrite, _) (by simp [stubs])
  · exact (implements (efiCr3Read, fun _ _ registers => (some registers.cr3, registers))
      (by simp [stubs])).result 1 rfl

/-! ## The jump -/

/-- `elf_jump_to_kernel` up to the jump. -/
def jumpBody : List Instr :=
  [.writeCr 3 .rdx, .movImm .rsp (BitVec.ofNat 64 (stackBase + stackSize)), .mov .rbp .rsp]

/-- `elf_jump_to_kernel`. Its arguments are in `rdi`, `rsi` and `rdx`. -/
def elfJumpToKernel : List Instr := jumpBody ++ [.jmp .rsi]

/-- Where the page tables send an address that is executed. -/
def executable (mem : Memory) (pml4 address : Nat) : Option Nat :=
  (walk mem pml4 address).bind fun found =>
    if found.noExecute then none else some (found.frame + address % pageSize)

/-- The last stub is about to be executed: it lies in the image of the loader, where the firmware maps
every address to itself, and it has its arguments. -/
structure BeforeJump (source : Fetching) (jump : Jump) (mem : Memory) (start stop : Nat) (cpu : Cpu) :
    Prop where
  lies : source.Lies elfJumpToKernel start stop
  lower : jump.info.image.imageBase ≤ start
  upper : stop ≤ jump.info.image.imageBase + jump.info.image.imageSize
  below : stop < 2 ^ 64
  rip : cpu.rip = BitVec.ofNat 64 start
  entry : cpu.reg .rsi = BitVec.ofNat 64 jump.entry
  pml4 : cpu.reg .rdx = BitVec.ofNat 64 jump.pml4
  same : cpu.mem = mem
  firmware : ∀ address, start ≤ address → address < stop →
    source.fetch (cpu.cr 3) (BitVec.ofNat 64 address) = some address
  tables : ∀ address, address < 2 ^ 64 →
    source.fetch (BitVec.ofNat 64 jump.pml4) (BitVec.ofNat 64 address) =
      executable mem jump.pml4 address

/-- The kernel runs: it is at its entry point, on its own stack and in its own page tables. -/
structure AtEntry (source : Fetching) (file : List UInt8) (jump : Jump) (mem : Memory) (cpu : Cpu) :
    Prop where
  rip : cpu.rip = BitVec.ofNat 64 jump.entry
  tables : cpu.cr 3 = BitVec.ofNat 64 jump.pml4
  stack : cpu.reg .rsp = BitVec.ofNat 64 (stackBase + stackSize) ∧ cpu.reg .rbp = cpu.reg .rsp
  same : cpu.mem = mem
  /-- What is executed is the byte of the file. -/
  fetches : ∀ phdr ∈ fileSegments file, ∀ k, k < phdr.pMemsz →
    ∃ physical, source.fetch (cpu.cr 3) (BitVec.ofNat 64 (phdr.pVaddr + k)) = some physical ∧
      cpu.mem physical = phdr.fileByte file k

section Jump

variable {source : Fetching} {file : List UInt8} {jump : Jump} {mem : Memory} {start stop : Nat}
  {cpu : Cpu}

theorem IdentityMapped.executable {extent : Extent} {pml4 address : Nat}
    (mapped : IdentityMapped mem pml4 extent) (inside : extent.Contains address) :
    VineyardLoader.executable mem pml4 address = some address := by
  rw [VineyardLoader.executable, mapped address inside]
  exact congrArg some (Nat.div_add_mod' address pageSize)

theorem jumpBody_sequential : ∀ instr ∈ jumpBody, instr.Sequential := by
  intro instr member
  apply sequential_of
  · rintro rfl
    exact absurd member (by decide)
  · rintro src rfl
    cases src <;> exact absurd member (by decide)

/-- The new tables are in place after the first instruction. -/
theorem jumpBody_tables {count : Nat} (inside : count + 1 < jumpBody.length) :
    (execAll (jumpBody.take (count + 1)) cpu).cr 3 = cpu.reg .rdx := by
  cases count with
  | zero => rfl
  | succ count =>
      cases count with
      | zero => rfl
      | succ count => exact absurd inside (by simp [jumpBody])

/-- A byte of the kernel that is mapped and may be executed is fetched. -/
theorem EntersImage.fetched (image : EntersImage file jump mem) {phdr : Elf64Phdr}
    (member : phdr ∈ fileSegments file) {k : Nat} (bound : k < phdr.pMemsz) :
    ∃ physical, VineyardLoader.executable mem jump.pml4 (phdr.pVaddr + k) = some physical ∧
      mem physical = phdr.fileByte file k := by
  obtain ⟨physical, translated, byte⟩ := image.image phdr member k bound
  obtain ⟨found, walked, -, execute⟩ := image.access phdr member k bound
  refine ⟨physical, ?_, byte⟩
  rw [translate, walked] at translated
  rw [VineyardLoader.executable, walked, Option.bind_some, execute]
  exact translated

/-- **The last stub enters the kernel.** -/
theorem elfJumpToKernel_enters (before : BeforeJump source jump mem start stop cpu)
    (kernel : UpperKernel file) (image : EntersImage file jump mem) :
    ∃ after, cpu.steps source 4 = some after ∧ AtEntry source file jump mem after := by
  obtain ⟨middle, body, last⟩ := Fetching.lies_append before.lies
  have order := last.le
  have lower := before.lower
  have upper := before.upper
  have below := before.below
  have loader : ∀ address, start ≤ address → address < stop →
      source.fetch (cpu.reg .rdx) (BitVec.ofNat 64 address) = some address := by
    intro address above inside
    rw [before.pml4, before.tables address (by omega)]
    exact image.loader.executable ⟨by dsimp only; omega, by dsimp only; omega⟩
  -- the tables change with the first instruction
  have three : cpu.steps source 3 = some { execAll jumpBody cpu with rip := BitVec.ofNat 64 middle } := by
    have same : { cpu with rip := BitVec.ofNat 64 start } = cpu := by rw [← before.rip]
    have run := @steps_of_lies source jumpBody start middle cpu body jumpBody_sequential
      (by omega) ?_
    · rwa [same] at run
    · intro count inside address above under
      cases count with
      | zero => exact before.firmware address above (by omega)
      | succ count =>
          rw [jumpBody_tables inside]
          exact loader address above (by omega)
  cases last with
  | @cons _ _ _ length _ here positive rest =>
      cases rest
      have fetched := loader middle (by have := body.le; omega) (by omega)
      refine ⟨{ execAll jumpBody cpu with rip := cpu.reg .rsi }, ?_, before.entry, before.pml4,
        ⟨rfl, rfl⟩, before.same, fun phdr member k bound => ?_⟩
      · rw [show 4 = 3 + 1 from rfl, Cpu.steps_add, three, Option.bind_some, Cpu.steps, Cpu.step]
        show ((source.fetch (cpu.reg .rdx) (BitVec.ofNat 64 middle)).bind _).bind _ = _
        rw [fetched, Option.bind_some, here]
        rfl
      · obtain ⟨physical, found, byte⟩ := image.fetched member bound
        have ends := (kernel.upper phdr member).ends
        refine ⟨physical, ?_, ?_⟩
        · show source.fetch (cpu.reg .rdx) _ = some physical
          rw [before.pml4, before.tables _ (by omega), found]
        · show cpu.mem physical = _
          rw [before.same, byte]

end Jump

end VineyardLoader
